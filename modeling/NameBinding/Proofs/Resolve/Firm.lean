import NameBinding.Proofs.Resolve.Answerable
import NameBinding.Proofs.Resolve.Scene

/-! # What aliases stand for stays

An alias stands for one symbol, which is no alias itself. Once it is marked, no step of resolving gives
it another one. -/

namespace NameBinding

open SymbolGraph

namespace SymbolGraph

variable {g g' : SymbolGraph} {a t x : SymbolId} {kind : EdgeKind} {e : Edge}

/-! ### One edge of a kind -/

/-- The edge becomes the only one of its kind that leaves its source. -/
def pointOnly (g : SymbolGraph) (x t : SymbolId) (kind : EdgeKind) : SymbolGraph :=
  (g.removeTargets x kind ((g.targets x kind).filter (· != t))).addEdge ⟨x, t, kind⟩

theorem label?_pointOnly (g : SymbolGraph) (x t : SymbolId) (kind : EdgeKind) (y : SymbolId) :
    (g.pointOnly x t kind).label? y = g.label? y :=
  (label?_addEdge _ _ y).trans (label?_removeTargets _ _ _ _ y)

theorem isResolved_pointOnly (g : SymbolGraph) (x t : SymbolId) (kind : EdgeKind) (y : SymbolId) :
    (g.pointOnly x t kind).isResolved y = g.isResolved y :=
  (isResolved_addEdge _ _ y).trans (isResolved_removeTargets _ _ _ _ y)

theorem Follows.pointOnly (g : SymbolGraph) (x t : SymbolId) (kind : EdgeKind) :
    g.Follows (g.pointOnly x t kind) :=
  .of_label? (label?_pointOnly g x t kind) fun hr => by rwa [isResolved_pointOnly]

theorem Mirrored.hasEdge_pointOnly (h : g.Mirrored) (hk : kind.isResolution) (hx : x < g.size)
    (ht : t < g.size) : (g.pointOnly x t kind).hasEdge e ↔
      e = ⟨x, t, kind⟩ ∨ g.hasEdge e ∧ ¬(e.source = x ∧ e.kind = kind) := by
  have hm := EdgeKind.not_isMembership_of_isResolution hk
  have hc := EdgeKind.ne_containedBy_of_isResolution hk
  rw [← size_removeTargets g x kind ((g.targets x kind).filter (· != t))] at hx ht
  constructor
  · intro he
    rcases (hasEdge_addEdge_of_plain hx ht hm).mp he with hold | rfl
    · by_cases hsame : e.source = x ∧ e.kind = kind
      · obtain ⟨source, target, kind'⟩ := e
        obtain ⟨rfl, rfl⟩ := hsame
        exact .inl (by rw [h.eq_target_of_hasEdge hm hc hx ht he])
      · exact .inr ⟨((h.hasEdge_removeTargets hm hc _).mp hold).1, hsame⟩
    · exact .inl rfl
  · rintro (rfl | ⟨hold, hother⟩)
    · exact (hasEdge_addEdge_of_plain hx ht hm).mpr (.inr rfl)
    · refine (hasEdge_addEdge_of_plain hx ht hm).mpr (.inl ?_)
      exact (h.hasEdge_removeTargets hm hc _).mpr ⟨hold, fun hgone => hother ⟨hgone.1, hgone.2.1⟩⟩

theorem WellFormed.pointOnly (h : g.WellFormed) (hx : x < g.size) (ht : t < g.size) :
    (g.pointOnly x t kind).WellFormed := by
  have hless : (g.removeTargets x kind ((g.targets x kind).filter (· != t))).WellFormed :=
    removeTargets_induction (fun _ _ hg => hg.removeEdge _) _ h
  exact hless.addEdge (by rwa [size_removeTargets]) (by rwa [size_removeTargets])

/-! ### What an alias stands for -/

/-- What an alias may stand for: what is there from the start, or what is declared and no alias. -/
def IsPlain (g : SymbolGraph) (x : SymbolId) : Prop :=
  x < WellKnown.count ∨ g.declarations x ≠ [] ∧ g.kind? x ≠ some .alias

instance (g : SymbolGraph) (x : SymbolId) : Decidable (g.IsPlain x) :=
  inferInstanceAs (Decidable (_ ∨ _))

theorem isPlain_error (g : SymbolGraph) : g.IsPlain WellKnown.error := .inl (by decide)

theorem Follows.isPlain_iff (h : g.Follows g') : g'.IsPlain x ↔ g.IsPlain x := by
  refine or_congr_right ?_
  rw [h.declarations]
  refine and_congr_right fun hdecl => ?_
  rw [kind?_congr (h.label? (Stands.of_declared hdecl).1)]

/-- What an alias stands for at the moment. One that is not resolved stands for nothing. -/
def standsFor (g : SymbolGraph) (a : SymbolId) : SymbolId :=
  (g.firstTarget a .typedAs).getD WellKnown.error

theorem standsFor_eq_of_hasEdge (hg : g.Mirrored) (hs : g.OneTarget .typedAs)
    (he : g.hasEdge ⟨a, t, .typedAs⟩) : g.standsFor a = t := by
  rw [standsFor, firstTarget, hs.targets_eq hg he]
  rfl

theorem targets_eq_nil_of_forall (hg : g.Mirrored) (h : ∀ t, ¬g.hasEdge ⟨a, t, kind⟩) :
    g.targets a kind = [] :=
  List.eq_nil_iff_forall_not_mem.mpr fun t ht => h t (hg.mem_targets_iff.mp ht)

theorem standsFor_eq_of_forall (hg : g.Mirrored) (h : ∀ t, ¬g.hasEdge ⟨a, t, .typedAs⟩) :
    g.standsFor a = WellKnown.error := by
  rw [standsFor, firstTarget, targets_eq_nil_of_forall hg h]
  rfl

/-- An alias stands for what its edge says, or for nothing. -/
theorem standsFor_congr (hg : g.Mirrored) (hg' : g'.Mirrored) (hs : g.OneTarget .typedAs)
    (hs' : g'.OneTarget .typedAs)
    (h : ∀ t, g'.hasEdge ⟨a, t, .typedAs⟩ ↔ g.hasEdge ⟨a, t, .typedAs⟩) :
    g'.standsFor a = g.standsFor a := by
  by_cases hex : ∃ t, g.hasEdge ⟨a, t, .typedAs⟩
  · obtain ⟨t, he⟩ := hex
    rw [standsFor_eq_of_hasEdge hg hs he, standsFor_eq_of_hasEdge hg' hs' ((h t).mpr he)]
  · have hnone : ∀ t, ¬g.hasEdge ⟨a, t, .typedAs⟩ := fun t he => hex ⟨t, he⟩
    rw [standsFor_eq_of_forall hg hnone,
      standsFor_eq_of_forall hg' fun t he => hnone t ((h t).mp he)]

end SymbolGraph

/-! ### Between requests -/

/-- What can be relied on when names are looked up. Declarations are found in the documents, those of
aliases are imports, and what an alias stands for is one symbol and no alias. -/
structure Searchable (setting : Setting) (g : SymbolGraph) : Prop extends g.WellFormed where
  initial : ∀ {x}, x < WellKnown.count → g.label? x = WellKnown.graph.label? x
  known : ∀ {x d}, d ∈ g.declarations x → ∃ site, setting.site? d = some site
  global : ∀ {name x}, x ∈ setting.program.globalSymbols name → g.declarations x ≠ []
  imports : ∀ {a d site}, g.kind? a = some .alias → d ∈ g.declarations a →
    setting.site? d = some site → ∃ i, site.tree.record? site.decl.node = some (.importEquals i)
  single : g.OneTarget .typedAs
  straight : ∀ {a t}, g.kind? a = some .alias → g.hasEdge ⟨a, t, .typedAs⟩ → g.IsPlain t

namespace Searchable

variable {setting : Setting} {g g' : SymbolGraph} {a t x : SymbolId}

theorem lt_size_of_initial (h : Searchable setting g) (hx : x < WellKnown.count) : x < g.size := by
  have hsome := isSome_label? WellKnown.graph x
  rw [← h.initial hx, isSome_label?, WellKnown.size_graph, decide_eq_true hx] at hsome
  exact of_decide_eq_true hsome

theorem lt_size_of_isPlain (h : Searchable setting g) (hx : g.IsPlain x) : x < g.size :=
  hx.elim h.lt_size_of_initial fun hdecl => (Stands.of_declared hdecl.1).1

theorem kind?_ne_alias_of_isPlain (h : Searchable setting g) (hx : g.IsPlain x) :
    g.kind? x ≠ some .alias := by
  refine hx.elim (fun hlt => ?_) And.right
  have hstart : ∀ x < WellKnown.count, WellKnown.graph.kind? x ≠ some .alias := by decide
  rw [kind?_congr (h.initial hlt)]
  exact hstart x hlt

theorem isPlain_standsFor (h : Searchable setting g) (ha : g.kind? a = some .alias) :
    g.IsPlain (g.standsFor a) := by
  by_cases hex : ∃ t, g.hasEdge ⟨a, t, .typedAs⟩
  · obtain ⟨t, he⟩ := hex
    rw [standsFor_eq_of_hasEdge h.toMirrored h.single he]
    exact h.straight ha he
  · rw [standsFor_eq_of_forall h.toMirrored fun t he => hex ⟨t, he⟩]
    exact isPlain_error g

/-- A change that keeps declarations, makes no alias, and gives aliases nothing but one plain symbol. -/
theorem follows (h : Searchable setting g) (hg' : g'.WellFormed) (hf : g.Follows g')
    (hold : ∀ {a}, g'.kind? a = some .alias → g.kind? a = some .alias)
    (hsingle : g'.OneTarget .typedAs)
    (hplain : ∀ {a t}, g.kind? a = some .alias → g'.hasEdge ⟨a, t, .typedAs⟩ → g.IsPlain t) :
    Searchable setting g' where
  toWellFormed := hg'
  initial hx := (hf.label? (h.lt_size_of_initial hx)).trans (h.initial hx)
  known {x d} hd := h.known (hf.declarations x ▸ hd)
  global {_ x} hx := by
    rw [hf.declarations]
    exact h.global hx
  imports {a d site} ha hd := h.imports (hold ha) (hf.declarations a ▸ hd)
  single := hsingle
  straight ha he := hf.isPlain_iff.mpr (hplain (hold ha) he)

end Searchable

/-! ### While names are resolved -/

/-- The second graph comes from the first one by resolving. Marked aliases stand for what they stood
for, and an alias that is marked anew stands for something, unless it is one of those that are passed
over. -/
structure Firm (setting : Setting) (passed : SymbolId → Prop) (g g' : SymbolGraph) : Prop
    extends Searchable setting g' where
  follows : g.Follows g'
  /-- No alias is new. -/
  old : ∀ {a}, g'.kind? a = some .alias → a < g.size
  kept : ∀ {a t}, g.kind? a = some .alias → g.isResolved a →
    (g'.hasEdge ⟨a, t, .typedAs⟩ ↔ g.hasEdge ⟨a, t, .typedAs⟩)
  settled : ∀ {a}, g.kind? a = some .alias → g.declarations a ≠ [] → ¬passed a →
    g'.isResolved a → g.isResolved a ∨ ∃ t, g'.hasEdge ⟨a, t, .typedAs⟩
  /-- Classes keep their sides, and other signatures and parameters are new symbols. -/
  sole : ∀ {e : Edge}, g'.hasEdge e → e.kind.isSole →
    g.hasEdge e ∨ e.kind ≠ .instanceType ∧ g.size ≤ e.target

namespace Firm

variable {setting : Setting} {passed passed' : SymbolId → Prop} {g₀ g g' g'' : SymbolGraph}
  {a t x : SymbolId} {kind : EdgeKind} {e : Edge}

theorem refl (h : Searchable setting g) : Firm setting passed g g where
  toSearchable := h
  follows := .refl g
  old ha := lt_size_of_kind? ha
  kept _ _ := Iff.rfl
  settled _ _ _ hr := .inl hr
  sole he _ := .inl he

theorem declarations_eq (h : Firm setting passed g g') (x : SymbolId) :
    g'.declarations x = g.declarations x := h.follows.declarations x

theorem kind?_eq (h : Firm setting passed g g') (hx : x < g.size) : g'.kind? x = g.kind? x :=
  kind?_congr (h.follows.label? hx)

theorem isAlias_iff (h : Firm setting passed g g') :
    g'.kind? a = some .alias ↔ g.kind? a = some .alias :=
  ⟨fun ha => h.kind?_eq (h.old ha) ▸ ha, h.follows.kind?⟩

theorem trans (h : Firm setting passed g g') (h' : Firm setting passed g' g'') :
    Firm setting passed g g'' where
  toSearchable := h'.toSearchable
  follows := h.follows.trans h'.follows
  old ha := h.old (h'.isAlias_iff.mp ha)
  kept ha hr := (h'.kept (h.isAlias_iff.mpr ha) (h.follows.isResolved hr)).trans (h.kept ha hr)
  settled {a} ha hdecl hp hr := by
    have ha' := h.isAlias_iff.mpr ha
    rcases h'.settled ha' (h.declarations_eq a ▸ hdecl) hp hr with hr' | hex
    · refine (h.settled ha hdecl hp hr').imp_right fun ⟨t, he⟩ => ?_
      exact ⟨t, (h'.kept ha' hr').mpr he⟩
    · exact .inr hex
  sole he hk := (h'.sole he hk).elim (h.sole · hk) fun hnew =>
    .inr ⟨hnew.1, Nat.le_trans h.follows.size_le hnew.2⟩

/-- Classes keep their sides. -/
theorem side (h : Firm setting passed g g') {y : SymbolId}
    (he : g'.hasEdge ⟨x, y, .instanceType⟩) : g.hasEdge ⟨x, y, .instanceType⟩ :=
  (h.sole he rfl).resolve_right fun hnew => hnew.1 rfl

theorem weaken (h : Firm setting passed g g')
    (hp : ∀ x, g.kind? x = some .alias → passed x → passed' x) : Firm setting passed' g g' where
  __ := h
  settled ha hdecl hno := h.settled ha hdecl fun hx => hno (hp _ ha hx)

/-- A marked alias stands for the same symbol in both graphs. -/
theorem standsFor_eq (h : Firm setting passed g g') (hg : Searchable setting g)
    (ha : g.kind? a = some .alias) (hr : g.isResolved a) : g'.standsFor a = g.standsFor a :=
  standsFor_congr hg.toMirrored h.toMirrored hg.single h.single fun _ => h.kept ha hr

/-! ### Steps -/

/-- A change that makes no alias and does not see what aliases stand for, apart from aliases that are
passed over. -/
theorem step (h : Firm setting passed g₀ g) (hg' : g'.WellFormed) (hf : g.Follows g')
    (hold : ∀ {a}, g'.kind? a = some .alias → a < g.size) (hsingle : g'.OneTarget .typedAs)
    (htyped : ∀ {a t}, g₀.kind? a = some .alias →
      (g'.hasEdge ⟨a, t, .typedAs⟩ ↔ g.hasEdge ⟨a, t, .typedAs⟩))
    (hmark : ∀ {a}, g₀.kind? a = some .alias → g₀.declarations a ≠ [] → ¬passed a →
      g'.isResolved a → g.isResolved a)
    (hsole : ∀ {e : Edge}, g'.hasEdge e → e.kind.isSole →
      g.hasEdge e ∨ e.kind ≠ .instanceType ∧ g₀.size ≤ e.target) : Firm setting passed g₀ g' := by
  have hback : ∀ {a}, g'.kind? a = some .alias → g.kind? a = some .alias := fun ha =>
    kind?_congr (hf.label? (hold ha)) ▸ ha
  exact {
    toSearchable := h.toSearchable.follows hg' hf hback hsingle fun ha he =>
      h.straight ha ((htyped (h.isAlias_iff.mp ha)).mp he)
    follows := h.follows.trans hf
    old := fun ha => h.old (hback ha)
    kept := fun ha hr => (htyped ha).trans (h.kept ha hr)
    settled := fun ha hdecl hp hr =>
      (h.settled ha hdecl hp (hmark ha hdecl hp hr)).imp_right fun ⟨t, he⟩ => ⟨t, (htyped ha).mpr he⟩
    sole := fun he hk => (hsole he hk).elim (h.sole · hk) .inr }

/-- A change that no label sees, and that leaves edges to types and marks alone. -/
theorem relabel (h : Firm setting passed g₀ g) (hg' : g'.WellFormed)
    (hlabel : ∀ x, g'.label? x = g.label? x) (hmark : ∀ x, g'.isResolved x = g.isResolved x)
    (htyped : ∀ {e : Edge}, e.kind = .typedAs → (g'.hasEdge e ↔ g.hasEdge e))
    (hsole : ∀ {e : Edge}, g'.hasEdge e → e.kind.isSole →
      g.hasEdge e ∨ e.kind ≠ .instanceType ∧ g₀.size ≤ e.target) : Firm setting passed g₀ g' :=
  h.step hg' (.of_label? hlabel fun hr => by rwa [hmark])
    (fun ha => lt_size_of_kind? (kind?_congr (hlabel _) ▸ ha))
    (h.single.mono fun hk => (htyped hk).mp) (fun _ => htyped rfl)
    (fun _ _ _ hr => hmark _ ▸ hr) hsole

/-- A mark on a symbol that is no alias, or on an alias that is passed over. -/
theorem mark (h : Firm setting passed g₀ g)
    (hx : g₀.kind? x = some .alias → g₀.declarations x ≠ [] → passed x) :
    Firm setting passed g₀ (g.setResolved x true) := by
  have hedge : ∀ {e : Edge}, (g.setResolved x true).hasEdge e ↔ g.hasEdge e :=
    Bool.eq_iff_iff.mp (hasEdge_setResolved g x true _)
  refine h.step (h.modify (by intro s; rfl) (by intro s; rfl) x) (.mark g x)
    (fun ha => lt_size_of_kind? (kind?_congr (label?_setResolved g x true _) ▸ ha))
    (h.single.mono fun _ => hedge.mp) (fun _ => hedge) (fun {a} ha hdecl hp hr => ?_)
    fun he _ => .inl (hedge.mp he)
  refine ((isResolved_setResolved g x a).mp hr).resolve_right ?_
  rintro ⟨rfl, -⟩
  exact hp (hx ha hdecl)

theorem alloc (h : Firm setting passed g₀ g) (name : String) {kind : SymbolKind}
    (hk : kind ≠ .alias) (flags : Flags SymbolFlag) :
    Firm setting passed g₀ (g.alloc name kind flags) := by
  have hedge : ∀ {e : Edge}, (g.alloc name kind flags).hasEdge e ↔ g.hasEdge e := by
    simp [hasEdge]
  refine h.step (h.toWellFormed.alloc name kind flags) (.alloc g name kind flags) (fun {a} ha => ?_)
    (h.single.mono fun _ => hedge.mp) (fun _ => hedge) (by simp) fun he _ => .inl (hedge.mp he)
  rw [SymbolGraph.kind?_eq, label?_alloc] at ha
  split at ha
  · exact absurd (Option.some.inj ha) hk
  · exact lt_size_of_kind? ((SymbolGraph.kind?_eq g a).trans ha)

theorem addEdge (h : Firm setting passed g₀ g) (hs : e.source < g.size) (ht : e.target < g.size)
    (htyped : e.kind ≠ .typedAs)
    (hsole : e.kind.isSole → e.kind ≠ .instanceType ∧ g₀.size ≤ e.target) :
    Firm setting passed g₀ (g.addEdge e) := by
  refine h.relabel (h.toWellFormed.addEdge hs ht) (label?_addEdge g e) (isResolved_addEdge g e)
    (fun hk => hasEdge_addEdge_of_ne hs ht (hk ▸ htyped.symm) (by simp [hk])) fun {x} hx hk => ?_
  rcases (hasEdge_addEdge hs ht).mp hx with hold | rfl | ⟨-, rfl⟩
  · exact .inl hold
  · exact .inr (hsole hk)
  · simp [Edge.backward, EdgeKind.isSole, EdgeKind.isSignature] at hk

theorem removeTargets (h : Firm setting passed g₀ g) (hk : kind.isResolution)
    (hx : kind = .typedAs → g₀.kind? x ≠ some .alias) (ends : List SymbolId) :
    Firm setting passed g₀ (g.removeTargets x kind ends) := by
  have hedge : ∀ {e : Edge}, (g.removeTargets x kind ends).hasEdge e ↔
      g.hasEdge e ∧ ¬(e.source = x ∧ e.kind = kind ∧ e.target ∈ ends) :=
    h.hasEdge_removeTargets (EdgeKind.not_isMembership_of_isResolution hk)
      (EdgeKind.ne_containedBy_of_isResolution hk) ends
  refine h.step (removeTargets_induction (fun _ _ hg => hg.removeEdge _) ends h.toWellFormed)
    (.of_label? (label?_removeTargets g x kind ends) fun hr => by rwa [isResolved_removeTargets])
    (fun ha => lt_size_of_kind? (kind?_congr (label?_removeTargets g x kind ends _) ▸ ha))
    (h.single.mono fun _ he => (hedge.mp he).1) (fun ha => hedge.trans (and_iff_left ?_)) (by simp)
    fun he _ => .inl (hedge.mp he).1
  rintro ⟨rfl, hkind, -⟩
  exact hx hkind.symm ha

/-- What is not the type of a symbol. -/
theorem pointOnly (h : Firm setting passed g₀ g) (hx : x < g.size) (ht : t < g.size)
    (hk : kind.isResolution) (hkind : kind ≠ .typedAs) :
    Firm setting passed g₀ (g.pointOnly x t kind) := by
  have hless := h.removeTargets hk (fun heq => absurd heq hkind) (x := x)
    ((g.targets x kind).filter (· != t))
  refine hless.addEdge (by rwa [size_removeTargets]) (by rwa [size_removeTargets]) hkind fun hsole => ?_
  exact absurd hk (EdgeKind.not_isResolution_of_isSole hsole)

/-- The type of a symbol that was passed over. An alias must not be marked before, and its type is
plain. -/
theorem close (h : Firm setting (fun y => passed y ∨ y = x) g₀ g) (hx : x < g.size)
    (ht : t < g.size) (hnew : g₀.kind? x = some .alias → ¬g₀.isResolved x)
    (hplain : g₀.kind? x = some .alias → g.IsPlain t) :
    Firm setting passed g₀ (g.pointOnly x t .typedAs) := by
  have hedge : ∀ {e : Edge}, (g.pointOnly x t .typedAs).hasEdge e ↔
      e = ⟨x, t, .typedAs⟩ ∨ g.hasEdge e ∧ ¬(e.source = x ∧ e.kind = .typedAs) :=
    h.hasEdge_pointOnly rfl hx ht
  have hother : ∀ {a y}, a ≠ x → ((g.pointOnly x t .typedAs).hasEdge ⟨a, y, .typedAs⟩ ↔
      g.hasEdge ⟨a, y, .typedAs⟩) := by
    intro a y hne
    rw [hedge]
    simp [hne]
  have hf : g.Follows (g.pointOnly x t .typedAs) := .pointOnly g x t .typedAs
  have hkind : ∀ a, (g.pointOnly x t .typedAs).kind? a = g.kind? a := fun a =>
    kind?_congr (label?_pointOnly g x t .typedAs a)
  have hsingle : (g.pointOnly x t .typedAs).OneTarget .typedAs := by
    intro a y z hy hz
    by_cases ha : a = x
    · subst ha
      simp only [hedge, Edge.mk.injEq, true_and, and_true, not_true_eq_false, and_false,
        or_false] at hy hz
      exact hy.trans hz.symm
    · exact h.single a y z ((hother ha).mp hy) ((hother ha).mp hz)
  exact {
    toSearchable := by
      refine h.toSearchable.follows (h.toWellFormed.pointOnly hx ht) hf (fun ha => hkind _ ▸ ha)
        hsingle fun {a y} ha he => ?_
      rcases hedge.mp he with heq | ⟨hold, -⟩
      · obtain ⟨rfl, rfl, -⟩ := Edge.mk.inj heq
        exact hplain (h.isAlias_iff.mp ha)
      · exact h.straight ha hold
    follows := h.follows.trans hf
    old := fun ha => h.old (hkind _ ▸ ha)
    kept := fun {a y} ha hr => by
      have hne : a ≠ x := by
        rintro rfl
        exact hnew ha hr
      exact (hother hne).trans (h.kept ha hr)
    settled := fun {a} ha hdecl hp hr => by
      by_cases hax : a = x
      · subst hax
        exact .inr ⟨t, hedge.mpr (.inl rfl)⟩
      · rw [isResolved_pointOnly] at hr
        refine (h.settled ha hdecl (fun hor => hor.elim hp hax) hr).imp_right fun ⟨y, he⟩ => ?_
        exact ⟨y, (hother hax).mpr he⟩
    sole := fun {e} he hk => by
      rcases hedge.mp he with rfl | ⟨hold, -⟩
      · simp [EdgeKind.isSole, EdgeKind.isSignature] at hk
      · exact h.sole hold hk }

end Firm

theorem Searchable.setResolved {setting : Setting} {g : SymbolGraph} (h : Searchable setting g)
    (x : SymbolId) : Searchable setting (g.setResolved x true) :=
  have hself : Firm setting (fun _ => True) g g := .refl h
  (hself.mark fun _ _ => True.intro).toSearchable

end NameBinding
