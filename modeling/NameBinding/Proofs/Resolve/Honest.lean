import NameBinding.Proofs.Resolve.Answerable
import NameBinding.Proofs.Resolve.Yields
import NameBinding.Workspace.Basic

/-! # What explains the error symbol

A symbol of the program text can be resolved to the error symbol. That is explained by the report of
a name that was not found, or by an alias that came up behind so many others that it was given up.
While a symbol is being resolved, its edges are old ones or not there yet, so it is left out of
account. -/

namespace NameBinding

open SymbolGraph

namespace SymbolKind

/-- Symbols of the kind are resolved to others by edges of these kinds. -/
def resolvesBy : SymbolKind → EdgeKind → Bool
  | .variable, .typedAs | .field, .typedAs | .parameter, .typedAs | .alias, .typedAs
  | .signature, .returnType | .interface, .extends | .instanceType, .extends
  | .instanceType, .implements => true
  | _, _ => false

/-- Symbols of the kind are resolved to nothing. -/
def isInert : SymbolKind → Bool
  | .variable | .field | .parameter | .alias | .signature | .interface | .instanceType => false
  | _ => true

theorem not_resolvesBy_of_isInert {kind : SymbolKind} (h : kind.isInert) (edge : EdgeKind) :
    ¬kind.resolvesBy edge := by
  cases kind <;> simp_all [isInert, resolvesBy]

/-- Where there is at most one edge of a kind, there is no other kind. -/
theorem eq_of_resolvesBy {kind : SymbolKind} {edge edge' : EdgeKind} (h : kind.resolvesBy edge)
    (h' : kind.resolvesBy edge') (hs : edge.isSingleValued) : edge' = edge := by
  cases kind <;> cases edge <;> simp_all [resolvesBy, EdgeKind.isSingleValued] <;>
    cases edge' <;> simp_all

end SymbolKind

namespace SymbolGraph

variable {g g₀ : SymbolGraph} {x : SymbolId}

/-- The symbol was resolved to the error symbol. -/
def EndsInError (g : SymbolGraph) (x : SymbolId) : Prop :=
  ∃ kind ∈ [EdgeKind.typedAs, .returnType, .extends, .implements],
    g.hasEdge ⟨x, WellKnown.error, kind⟩

instance (g : SymbolGraph) (x : SymbolId) : Decidable (g.EndsInError x) :=
  inferInstanceAs (Decidable (∃ kind ∈ _, _))

theorem EndsInError.exists_edge (h : g.EndsInError x) :
    ∃ kind : EdgeKind, kind.isResolution ∧ g.hasEdge ⟨x, WellKnown.error, kind⟩ := by
  obtain ⟨kind, hmem, he⟩ := h
  refine ⟨kind, ?_, he⟩
  revert hmem
  cases kind <;> simp [EdgeKind.isResolution]

/-- A symbol of the program text that counts as resolved, and was resolved to the error symbol. -/
def Erroneous (g : SymbolGraph) (x : SymbolId) : Prop :=
  g.declarations x ≠ [] ∧ g.isResolved x ∧ g.EndsInError x

instance (g : SymbolGraph) (x : SymbolId) : Decidable (g.Erroneous x) :=
  inferInstanceAs (Decidable (_ ∧ _))

end SymbolGraph

/-! ### Aliases behind others -/

namespace Setting

variable {setting : Setting} {g : SymbolGraph} {a c : SymbolId} {n : Nat}

/-- The dotted name for which the first alias is declared to stand can lead through the second one. -/
structure NamesAlias (setting : Setting) (g : SymbolGraph) (a c : SymbolId) : Prop where
  kind : g.kind? c = some .alias
  declared : g.declarations c ≠ []
  ne : c ≠ a
  mem : g.name c ∈ setting.aliasPath g a

/-- The symbol comes up behind so many aliases, each in the name of the one before. -/
inductive LiesBehind (setting : Setting) (g : SymbolGraph) : Nat → SymbolId → Prop
  | start (a : SymbolId) : LiesBehind setting g 0 a
  | next {n : Nat} {a c : SymbolId} (h : LiesBehind setting g n a)
      (hc : setting.NamesAlias g a c) : LiesBehind setting g (n + 1) c

/-- The alias comes up behind as many others as are followed. -/
def Knotted (setting : Setting) (g : SymbolGraph) (a : SymbolId) : Prop :=
  setting.LiesBehind g Limits.aliasDepth a

theorem LiesBehind.kind?_eq (h : setting.LiesBehind g n a) (hn : n ≠ 0) :
    g.kind? a = some .alias := by
  cases h with
  | start => exact absurd rfl hn
  | next _ hc => exact hc.kind

theorem Knotted.kind?_eq (h : setting.Knotted g a) : g.kind? a = some .alias :=
  LiesBehind.kind?_eq h (by decide)

/-- In a circle there is no end of aliases to come up behind. -/
theorem liesBehind_of_transGen (h : Relation.TransGen (setting.NamesAlias g) a a) (n : Nat) :
    setting.LiesBehind g n a := by
  induction n generalizing a with
  | zero => exact .start a
  | succ n ih =>
      obtain ⟨b, hab, hba⟩ := Relation.TransGen.tail'_iff.mp h
      exact .next (ih (Relation.TransGen.head' hba hab)) hba

theorem knotted_of_transGen (h : Relation.TransGen (setting.NamesAlias g) a a) :
    setting.Knotted g a := liesBehind_of_transGen h _

end Setting

/-- A name was reported as not found, or an alias outside the list stands for the error symbol and
comes up behind too many others. -/
def Resolution.Explains (setting : Setting) (g₀ : SymbolGraph) (busy : List SymbolId)
    (r : Resolution) : Prop :=
  (∃ d ∈ r.diagnostics, Workspace.isLookupMiss d) ∨
    ∃ a ∉ busy, r.graph.Erroneous a ∧ setting.Knotted g₀ a

/-! ### What stays so -/

namespace SymbolGraph

/-- The second graph comes from the first one by resolving symbols, each in the way of its kind. -/
structure Tidy (g₀ g : SymbolGraph) : Prop extends g.WellFormed where
  follows : g₀.Follows g
  /-- Structure was there before, or belongs to new symbols. -/
  bound : ∀ {e : Edge}, g.hasEdge e → g₀.hasEdge e ∨ e.kind.isResolution ∨
    (e.kind ≠ .instanceType ∧ g₀.size ≤ e.source ∧ (e.kind = .arrayOf ∨ g₀.size ≤ e.target))
  fits : ∀ {e : Edge}, g.hasEdge e → e.kind.isResolution → g₀.declarations e.source ≠ [] →
    ∃ kind, g₀.kind? e.source = some kind ∧ kind.resolvesBy e.kind
  /-- What an alias stands for is no alias. -/
  straight : ∀ {e : Edge}, g.hasEdge e → e.kind = .typedAs → g₀.kind? e.source = some .alias →
    g₀.declarations e.source ≠ [] → g.kind? e.target ≠ some .alias

namespace Tidy

variable {g₀ g : SymbolGraph} {x : SymbolId}

theorem mark (h : g₀.Tidy g) (x : SymbolId) : g₀.Tidy (g.setResolved x true) where
  toWellFormed := h.toWellFormed.modify (by intro s; rfl) (by intro s; rfl) x
  follows := h.follows.trans (.mark g x)
  bound he := h.bound (by rwa [hasEdge_setResolved] at he)
  fits he := h.fits (by rwa [hasEdge_setResolved] at he)
  straight he hk ha hdecl := by
    rw [kind?_congr (label?_setResolved g x true _)]
    exact h.straight (by rwa [hasEdge_setResolved] at he) hk ha hdecl

theorem alloc (h : g₀.Tidy g) (name : String) (kind : SymbolKind) (flags : Flags SymbolFlag) :
    g₀.Tidy (g.alloc name kind flags) where
  toWellFormed := h.toWellFormed.alloc name kind flags
  follows := h.follows.trans (.alloc g name kind flags)
  bound he := h.bound (by simpa [hasEdge] using he)
  fits he := h.fits (by simpa [hasEdge] using he)
  straight {e} he hk ha hdecl := by
    have hold : g.hasEdge e := by simpa [hasEdge] using he
    rw [kind?_congr ((Follows.alloc g name kind flags).label? (h.lt_size hold).2)]
    exact h.straight hold hk ha hdecl

theorem addEdge (h : g₀.Tidy g) {e : Edge} (hs : e.source < g.size) (ht : e.target < g.size)
    (hbound : e.kind.isResolution ∨
      (e.kind ≠ .instanceType ∧ g₀.size ≤ e.source ∧ (e.kind = .arrayOf ∨ g₀.size ≤ e.target)))
    (hfits : e.kind.isResolution → g₀.declarations e.source ≠ [] →
      ∃ kind, g₀.kind? e.source = some kind ∧ kind.resolvesBy e.kind)
    (hstraight : e.kind = .typedAs → g₀.kind? e.source = some .alias →
      g₀.declarations e.source ≠ [] → g.kind? e.target ≠ some .alias) : g₀.Tidy (g.addEdge e) where
  toWellFormed := h.toWellFormed.addEdge hs ht
  follows := h.follows.trans (.addEdge g e)
  bound he := by
    rcases (hasEdge_addEdge hs ht).mp he with he | rfl | ⟨hm, rfl⟩
    · exact h.bound he
    · exact .inr hbound
    · refine .inr (.inr ?_)
      rcases hbound with hr | ⟨-, hsource, ha | htarget⟩
      · exact absurd hm (EdgeKind.not_isMembership_of_isResolution hr)
      · simp [ha, EdgeKind.isMembership] at hm
      · exact ⟨by simp [Edge.backward], htarget, .inr hsource⟩
  fits he hr := by
    rcases (hasEdge_addEdge hs ht).mp he with he | rfl | ⟨-, rfl⟩
    · exact h.fits he hr
    · exact hfits hr
    · simp [Edge.backward, EdgeKind.isResolution] at hr
  straight he hk := by
    rw [kind?_congr (label?_addEdge g e _)]
    rcases (hasEdge_addEdge hs ht).mp he with he | rfl | ⟨-, rfl⟩
    · exact h.straight he hk
    · exact hstraight hk
    · simp [Edge.backward] at hk

theorem removeTargets (h : g₀.Tidy g) (x : SymbolId) {kind : EdgeKind} (hk : kind.isResolution)
    (ends : List SymbolId) : g₀.Tidy (g.removeTargets x kind ends) := by
  have hold : ∀ {e : Edge}, (g.removeTargets x kind ends).hasEdge e → g.hasEdge e := fun he =>
    ((h.hasEdge_removeTargets (EdgeKind.not_isMembership_of_isResolution hk)
      (EdgeKind.ne_containedBy_of_isResolution hk) ends).mp he).1
  refine ⟨?_, ?_, fun he => h.bound (hold he), fun he => h.fits (hold he), fun {e} he hk ha hdecl => ?_⟩
  · exact removeTargets_induction (fun _ _ hg => hg.removeEdge _) ends h.toWellFormed
  · exact h.follows.trans (.of_label? (label?_removeTargets g x kind ends) fun hr => by
      rwa [isResolved_removeTargets])
  · rw [kind?_congr (label?_removeTargets g x kind ends _)]
    exact h.straight (hold he) hk ha hdecl

theorem declarations_eq (h : g₀.Tidy g) (x : SymbolId) : g.declarations x = g₀.declarations x :=
  h.follows.declarations x

theorem kind?_eq (h : g₀.Tidy g) (hx : g₀.declarations x ≠ []) : g.kind? x = g₀.kind? x :=
  kind?_congr (h.follows.label? (Stands.of_declared hx).1)

theorem name_eq (h : g₀.Tidy g) (hx : g₀.declarations x ≠ []) : g.name x = g₀.name x :=
  name_congr (h.follows.label? (Stands.of_declared hx).1)

/-- The sides of classes are those from before. -/
theorem hasEdge_instanceType (h : g₀.Tidy g) {y : SymbolId}
    (he : g.hasEdge ⟨x, y, .instanceType⟩) : g₀.hasEdge ⟨x, y, .instanceType⟩ := by
  rcases h.bound he with hold | hr | ⟨hne, -⟩
  · exact hold
  · simp [EdgeKind.isResolution] at hr
  · exact absurd rfl hne

end Tidy

/-- Declared symbols that are not in the list have the same marks in both graphs, and are resolved to
the same symbols. -/
structure SameAnswers (busy : List SymbolId) (g g' : SymbolGraph) : Prop where
  declarations : ∀ x, g'.declarations x = g.declarations x
  isResolved : ∀ {x}, x ∉ busy → g.declarations x ≠ [] → (g'.isResolved x ↔ g.isResolved x)
  hasEdge : ∀ {e : Edge}, e.source ∉ busy → g.declarations e.source ≠ [] →
    e.kind.isResolution → (g'.hasEdge e ↔ g.hasEdge e)

namespace SameAnswers

variable {busy : List SymbolId} {g g' : SymbolGraph} {x : SymbolId}

theorem erroneous_iff (h : SameAnswers busy g g') (hx : x ∉ busy) :
    g'.Erroneous x ↔ g.Erroneous x := by
  unfold Erroneous
  rw [h.declarations]
  refine and_congr_right fun hdecl => and_congr (h.isResolved hx hdecl) ?_
  refine exists_congr fun kind => and_congr_right fun hk => h.hasEdge hx hdecl ?_
  revert hk
  cases kind <;> simp [EdgeKind.isResolution]

theorem alloc (g : SymbolGraph) (name : String) (kind : SymbolKind) (flags : Flags SymbolFlag) :
    SameAnswers busy g (g.alloc name kind flags) where
  declarations := declarations_alloc g name kind flags
  isResolved _ _ := by rw [isResolved_alloc]
  hasEdge _ _ _ := by simp [SymbolGraph.hasEdge]

theorem mark (hx : x ∈ busy ∨ g.declarations x = []) :
    SameAnswers busy g (g.setResolved x true) where
  declarations := declarations_setResolved g x true
  isResolved {y} hy hdecl := by
    rw [isResolved_setResolved]
    refine or_iff_left ?_
    rintro ⟨rfl, -⟩
    exact hx.elim hy hdecl
  hasEdge _ _ _ := by rw [hasEdge_setResolved]

theorem addEdge {e : Edge} (hs : e.source < g.size) (ht : e.target < g.size)
    (he : e.kind.isResolution → e.source ∈ busy ∨ g.declarations e.source = []) :
    SameAnswers busy g (g.addEdge e) where
  declarations x := declarations_congr (label?_addEdge g e x)
  isResolved _ _ := by rw [isResolved_addEdge]
  hasEdge {y} hy hdecl hk := by
    rw [hasEdge_addEdge hs ht]
    refine or_iff_left ?_
    rintro (rfl | ⟨-, rfl⟩)
    · exact (he hk).elim hy hdecl
    · simp [Edge.backward, EdgeKind.isResolution] at hk

theorem removeTargets (hg : g.Mirrored) (hx : x ∈ busy ∨ g.declarations x = [])
    {kind : EdgeKind} (hk : kind.isResolution) (ends : List SymbolId) :
    SameAnswers busy g (g.removeTargets x kind ends) where
  declarations y := declarations_congr (label?_removeTargets g x kind ends y)
  isResolved _ _ := by rw [isResolved_removeTargets]
  hasEdge {e} he hdecl _ := by
    rw [hg.hasEdge_removeTargets (EdgeKind.not_isMembership_of_isResolution hk)
      (EdgeKind.ne_containedBy_of_isResolution hk)]
    refine and_iff_left ?_
    rintro ⟨rfl, -⟩
    exact hx.elim he hdecl

end SameAnswers

end SymbolGraph

/-- The state comes from the graph by resolving, and what stands for the error symbol in it is
explained, except for symbols that are being resolved. -/
structure Resolution.Honest (setting : Setting) (g₀ : SymbolGraph) (busy : List SymbolId)
    (r : Resolution) : Prop where
  tidy : g₀.Tidy r.graph
  settled : ∀ {a}, g₀.kind? a = some .alias → g₀.declarations a ≠ [] → a ∉ busy →
    r.graph.isResolved a → ∃ target, r.graph.hasEdge ⟨a, target, .typedAs⟩
  marked : ∀ x ∈ busy, r.graph.isResolved x
  accounted : r.Explains setting g₀ busy ∨ ∀ x ∉ busy, ¬r.graph.Erroneous x

namespace Resolution

variable {setting : Setting} {g₀ g' : SymbolGraph} {busy : List SymbolId} {r r' : Resolution}
  {x : SymbolId}

/-- Reports stay, and so do the aliases that explain something. -/
theorem Explains.mono {busy' : List SymbolId} (h : r.Explains setting g₀ busy)
    (hlog : r.diagnostics ⊆ r'.diagnostics)
    (halias : ∀ a ∉ busy, g₀.kind? a = some .alias → r.graph.Erroneous a →
      a ∉ busy' ∧ r'.graph.Erroneous a) : r'.Explains setting g₀ busy' := by
  rcases h with ⟨d, hd, hmiss⟩ | ⟨a, ha, herror, hknot⟩
  · exact .inl ⟨d, hlog hd, hmiss⟩
  · obtain ⟨ha', herror'⟩ := halias a ha hknot.kind?_eq herror
    exact .inr ⟨a, ha', herror', hknot⟩

theorem Explains.follow (h : r.Explains setting g₀ busy) (hsame : SameAnswers busy r.graph g') :
    Resolution.Explains setting g₀ busy { r with graph := g' } :=
  h.mono (List.Subset.refl _) fun _ ha _ herror => ⟨ha, (hsame.erroneous_iff ha).mpr herror⟩

namespace Honest

/-- Outside the list nothing stands for the error symbol without an explanation. -/
theorem explains (h : r.Honest setting g₀ busy) (hx : x ∉ busy) (he : r.graph.Erroneous x) :
    r.Explains setting g₀ busy := h.accounted.resolve_right fun hno => hno x hx he

/-- Changes at new symbols and at symbols that are being resolved. -/
theorem follow (h : r.Honest setting g₀ busy) (htidy : g₀.Tidy g')
    (hsame : SameAnswers busy r.graph g') (hmark : ∀ x, r.graph.isResolved x → g'.isResolved x) :
    Resolution.Honest setting g₀ busy { r with graph := g' } where
  tidy := htidy
  settled {a} ha hdecl hout hr := by
    have hdecl' : r.graph.declarations a ≠ [] := by rwa [h.tidy.declarations_eq]
    obtain ⟨target, he⟩ := h.settled ha hdecl hout ((hsame.isResolved hout hdecl').mp hr)
    exact ⟨target, (hsame.hasEdge (e := ⟨a, target, .typedAs⟩) hout hdecl' rfl).mpr he⟩
  marked x hx := hmark x (h.marked x hx)
  accounted := by
    rcases h.accounted with hex | hno
    · exact .inl (hex.follow hsame)
    · exact .inr fun x hx herror => hno x hx ((hsame.erroneous_iff hx).mp herror)

/-- What a symbol was resolved to is taken away while it is being resolved, or if it is not
declared. -/
theorem removeTargets (h : r.Honest setting g₀ busy) (hx : x ∈ busy ∨ g₀.declarations x = [])
    {kind : EdgeKind} (hk : kind.isResolution) (ends : List SymbolId) :
    Resolution.Honest setting g₀ busy { r with graph := r.graph.removeTargets x kind ends } :=
  h.follow (h.tidy.removeTargets x hk ends) (.removeTargets h.tidy.toMirrored
    (hx.imp_right fun hx => h.tidy.declarations_eq x ▸ hx) hk ends)
    fun y hy => by rwa [isResolved_removeTargets]

/-- A symbol begins to be resolved. What explains something is not resolved anew. -/
theorem mark_open (h : r.Honest setting g₀ busy) (hx : x < r.graph.size)
    (hnew : g₀.kind? x = some .alias → ¬r.graph.isResolved x) :
    Resolution.Honest setting g₀ (x :: busy)
      { r with graph := r.graph.setResolved x true } where
  tidy := h.tidy.mark x
  settled {a} ha hdecl hout hr := by
    obtain ⟨hne, hout⟩ := List.ne_and_not_mem_of_not_mem_cons hout
    rcases (isResolved_setResolved r.graph x a).mp hr with hr | ⟨rfl, -⟩
    · obtain ⟨target, he⟩ := h.settled ha hdecl hout hr
      exact ⟨target, by rwa [hasEdge_setResolved]⟩
    · exact absurd rfl hne
  marked y hy := by
    rw [isResolved_setResolved]
    rcases List.mem_cons.mp hy with rfl | hy
    · exact .inr ⟨rfl, hx⟩
    · exact .inl (h.marked y hy)
  accounted := by
    have hsame : SameAnswers (x :: busy) r.graph (r.graph.setResolved x true) :=
      .mark (.inl List.mem_cons_self)
    rcases h.accounted with hex | hno
    · refine .inl (hex.mono (List.Subset.refl _) fun a ha hk herror => ?_)
      have hout : a ∉ x :: busy := by
        rintro hmem
        rcases List.mem_cons.mp hmem with rfl | hmem
        · exact hnew hk herror.2.1
        · exact ha hmem
      exact ⟨hout, (hsame.erroneous_iff hout).mpr herror⟩
    · refine .inr fun y hy herror => ?_
      exact hno y (List.ne_and_not_mem_of_not_mem_cons hy).2 ((hsame.erroneous_iff hy).mp herror)

/-- A symbol is resolved in the end. If it stands for the error symbol, that must be explained. -/
theorem close (h : r.Honest setting g₀ (x :: busy))
    (hsettled : g₀.kind? x = some .alias → g₀.declarations x ≠ [] →
      ∃ target, r.graph.hasEdge ⟨x, target, .typedAs⟩)
    (herror : r.graph.Erroneous x → r.Explains setting g₀ (x :: busy) ∨ setting.Knotted g₀ x) :
    r.Honest setting g₀ busy := by
  have hless : r.Explains setting g₀ (x :: busy) → r.Explains setting g₀ busy := fun hex =>
    hex.mono (List.Subset.refl _) fun a ha _ herror => ⟨(List.ne_and_not_mem_of_not_mem_cons ha).2, herror⟩
  refine ⟨h.tidy, fun {a} ha hdecl hout hr => ?_, fun y hy => h.marked y (List.mem_cons_of_mem x hy),
    ?_⟩
  · by_cases hax : a = x
    · subst hax
      exact hsettled ha hdecl
    · exact h.settled ha hdecl (List.not_mem_cons_of_ne_of_not_mem hax hout) hr
  · by_cases hex : r.Explains setting g₀ busy
    · exact .inl hex
    · refine .inr fun y hy hy' => ?_
      by_cases hyx : y = x
      · subst hyx
        rcases herror hy' with hex' | hknot
        · exact hex (hless hex')
        · exact hex (.inr ⟨y, hy, hy', hknot⟩)
      · exact hex (hless (h.explains (List.not_mem_cons_of_ne_of_not_mem hyx hy) hy'))

/-- A symbol from which no edge is left by which it could be resolved. -/
theorem close_bare (h : r.Honest setting g₀ (x :: busy)) (hnot : g₀.kind? x ≠ some .alias)
    (hbare : ∀ symbolKind kind target, g₀.declarations x ≠ [] → g₀.kind? x = some symbolKind →
      symbolKind.resolvesBy kind → ¬r.graph.hasEdge ⟨x, target, kind⟩) :
    r.Honest setting g₀ busy := by
  refine h.close (fun ha => absurd ha hnot) fun herror => ?_
  have hdecl : g₀.declarations x ≠ [] := h.tidy.declarations_eq x ▸ herror.1
  obtain ⟨kind, hk, he⟩ := herror.2.2.exists_edge
  obtain ⟨symbolKind, hsymbol, hby⟩ := h.tidy.fits he hk hdecl
  exact absurd he (hbare symbolKind kind _ hdecl hsymbol hby)

/-- Reports only explain more. -/
theorem log (h : r.Honest setting g₀ busy) (hg : r'.graph = r.graph)
    (hlog : r.diagnostics ⊆ r'.diagnostics) : r'.Honest setting g₀ busy := by
  obtain ⟨g, ds⟩ := r'
  obtain rfl : g = r.graph := hg
  refine ⟨h.tidy, h.settled, h.marked, ?_⟩
  exact h.accounted.imp_left fun hex => hex.mono hlog fun a ha _ herror => ⟨ha, herror⟩

/-- A symbol that is resolved to nothing is marked. -/
theorem mark_inert (h : r.Honest setting g₀ busy)
    (hx : g₀.declarations x ≠ [] → ∃ kind, g₀.kind? x = some kind ∧ kind.isInert) :
    Resolution.Honest setting g₀ busy { r with graph := r.graph.setResolved x true } := by
  have htidy := h.tidy.mark x
  by_cases hdecl : g₀.declarations x = []
  · refine h.follow htidy (.mark (.inr ?_)) fun y hy => (isResolved_setResolved _ _ _).mpr (.inl hy)
    rwa [h.tidy.declarations_eq]
  have hinert : ∀ kind edge, g₀.kind? x = some kind → ¬kind.resolvesBy edge := by
    obtain ⟨kind, hk, hinert⟩ := hx hdecl
    intro kind' edge hk'
    obtain rfl := Option.some.inj (hk.symm.trans hk')
    exact SymbolKind.not_resolvesBy_of_isInert hinert edge
  have hold : ∀ {y}, (r.graph.setResolved x true).Erroneous y → r.graph.Erroneous y := by
    rintro y ⟨hy, hmark, hend⟩
    obtain ⟨edge, hk, he⟩ := hend.exists_edge
    have hne : y ≠ x := by
      rintro rfl
      obtain ⟨kind, hkind, hby⟩ := htidy.fits he hk hdecl
      exact hinert kind edge hkind hby
    have hsame : SameAnswers [x] r.graph (r.graph.setResolved x true) :=
      .mark (.inl List.mem_cons_self)
    exact (hsame.erroneous_iff fun hmem => hne (List.mem_singleton.mp hmem)).mp ⟨hy, hmark, hend⟩
  have hnew : ∀ {y}, r.graph.Erroneous y → (r.graph.setResolved x true).Erroneous y := by
    rintro y ⟨hy, hmark, hend⟩
    refine ⟨by rwa [declarations_setResolved], (isResolved_setResolved _ _ _).mpr (.inl hmark), ?_⟩
    obtain ⟨kind, hmem, he⟩ := hend
    exact ⟨kind, hmem, by rwa [hasEdge_setResolved]⟩
  refine ⟨htidy, fun {a} ha hdecl' hout hr => ?_, fun y hy => ?_, ?_⟩
  · rcases (isResolved_setResolved r.graph x a).mp hr with hr | ⟨rfl, -⟩
    · obtain ⟨target, he⟩ := h.settled ha hdecl' hout hr
      exact ⟨target, by rwa [hasEdge_setResolved]⟩
    · exact absurd rfl (hinert .alias .typedAs ha)
  · exact (isResolved_setResolved _ _ _).mpr (.inl (h.marked y hy))
  · refine h.accounted.imp (fun hex => ?_) fun hno y hy herror => hno y hy (hold herror)
    exact hex.mono (List.Subset.refl _) fun a ha _ herror => ⟨ha, hnew herror⟩

/-- A base is linked. If it is the error symbol, that must be explained. -/
theorem addBase (h : r.Honest setting g₀ busy) {e : Edge} (hs : e.source < r.graph.size)
    (ht : e.target < r.graph.size) (hk : e.kind = .extends ∨ e.kind = .implements)
    (hfits : g₀.declarations e.source ≠ [] →
      ∃ kind, g₀.kind? e.source = some kind ∧ kind.resolvesBy e.kind)
    (herror : e.target = WellKnown.error → r.Explains setting g₀ busy) :
    Resolution.Honest setting g₀ busy { r with graph := r.graph.addEdge e } := by
  have hres : e.kind.isResolution := by rcases hk with hk | hk <;> simp [hk, EdgeKind.isResolution]
  have hplain := EdgeKind.not_isMembership_of_isResolution hres
  have hstays : ∀ {y}, r.graph.hasEdge y → (r.graph.addEdge e).hasEdge y := fun hy =>
    (hasEdge_addEdge hs ht).mpr (.inl hy)
  have hmono : ∀ {x}, r.graph.Erroneous x → (r.graph.addEdge e).Erroneous x := by
    rintro x ⟨hx, hmark, kind, hmem, he⟩
    exact ⟨by rwa [declarations_congr (label?_addEdge _ e x)], by rwa [isResolved_addEdge], kind,
      hmem, hstays he⟩
  refine ⟨h.tidy.addEdge hs ht (.inl hres) (fun _ => hfits) (fun hty => ?_),
    fun {a} ha hdecl hout hr => ?_, fun y hy => by simpa using h.marked y hy, ?_⟩
  · rcases hk with hk | hk <;> simp [hk] at hty
  · obtain ⟨target, he⟩ := h.settled ha hdecl hout (by simpa using hr)
    exact ⟨target, hstays he⟩
  · by_cases hex : r.Explains setting g₀ busy
    · exact .inl (hex.mono (List.Subset.refl _) fun a ha _ herror => ⟨ha, hmono herror⟩)
    · right
      rintro x hx ⟨hdecl, hmark, kind, hmem, he⟩
      refine hex (h.explains hx ⟨?_, ?_, ?_⟩)
      · rwa [declarations_congr (label?_addEdge _ e x)] at hdecl
      · simpa using hmark
      · rcases (hasEdge_addEdge_of_plain hs ht hplain).mp he with he | rfl
        · exact ⟨kind, hmem, he⟩
        · exact absurd (herror rfl) hex

/-! ### Steps -/

theorem yields_report (h : r.Honest setting g₀ busy) (d : Diagnostic) :
    r.Yields (ResolveM.report d) fun _ r' => r'.Honest setting g₀ busy ∧
      (Workspace.isLookupMiss d → r'.Explains setting g₀ busy) := by
  refine (ResolveM.yields_report r d).weaken ?_
  rintro _ r' ⟨hg, hmem, hlog⟩
  exact ⟨h.log hg hlog, fun hmiss => .inl ⟨d, hmem, hmiss⟩⟩

/-- What is made is new. -/
theorem yields_alloc (h : r.Honest setting g₀ busy) (name : String) (kind : SymbolKind)
    (flags : Flags SymbolFlag) : r.Yields (ResolveM.alloc name kind flags) fun x r' =>
      r'.Honest setting g₀ busy ∧ g₀.size ≤ x := by
  refine (ResolveM.yields_alloc r name kind flags).weaken ?_
  rintro _ _ ⟨rfl, rfl⟩
  refine ⟨h.follow (h.tidy.alloc name kind flags) (.alloc _ _ _ _) fun y hy => ?_,
    h.tidy.follows.size_le⟩
  rwa [isResolved_alloc]

/-- New symbols are joined to what they are made for. -/
theorem yields_link (h : r.Honest setting g₀ busy) {source target : SymbolId} {kind : EdgeKind}
    (hres : ¬kind.isResolution) (hside : kind ≠ .instanceType) (hs : g₀.size ≤ source)
    (ht : kind = .arrayOf ∨ g₀.size ≤ target) :
    r.Yields (ResolveM.link source target kind) fun _ r' => r'.Honest setting g₀ busy := by
  refine (ResolveM.yields_link r source target kind).weaken ?_
  rintro _ _ ⟨hslt, htlt, rfl⟩
  refine h.follow (h.tidy.addEdge hslt htlt (.inr ⟨hside, hs, ht⟩) (fun hk => absurd hk hres) ?_)
    (.addEdge hslt htlt fun hk => absurd hk hres) fun y hy => ?_
  · rintro rfl
    exact absurd rfl hres
  · rwa [isResolved_addEdge]

theorem yields_linkBase (h : r.Honest setting g₀ busy) {source target : SymbolId} {kind : EdgeKind}
    (hk : kind = .extends ∨ kind = .implements) (hfits : g₀.declarations source ≠ [] →
      ∃ symbolKind, g₀.kind? source = some symbolKind ∧ symbolKind.resolvesBy kind)
    (herror : target = WellKnown.error → r.Explains setting g₀ busy) :
    r.Yields (ResolveM.link source target kind) fun _ r' => r'.Honest setting g₀ busy := by
  refine (ResolveM.yields_link r source target kind).weaken ?_
  rintro _ _ ⟨hslt, htlt, rfl⟩
  exact h.addBase hslt htlt hk hfits herror

theorem yields_markResolved (h : r.Honest setting g₀ busy)
    (hx : g₀.declarations x ≠ [] → ∃ kind, g₀.kind? x = some kind ∧ kind.isInert) :
    r.Yields (ResolveM.markResolved x) fun _ r' => r'.Honest setting g₀ busy := by
  refine (ResolveM.yields_markResolved r x).weaken ?_
  rintro _ _ rfl
  exact h.mark_inert hx

theorem yields_markResolved_new (h : r.Honest setting g₀ busy) (hx : g₀.size ≤ x) :
    r.Yields (ResolveM.markResolved x) fun _ r' => r'.Honest setting g₀ busy :=
  h.yields_markResolved fun hdecl => absurd (declarations_eq_nil hx) hdecl

/-- What a symbol that is being resolved was resolved to before is taken away. -/
theorem yields_removeOutgoing (h : r.Honest setting g₀ busy) (hx : x ∈ busy) {kind : EdgeKind}
    (hk : kind.isResolution) : r.Yields (ResolveM.removeOutgoing x kind) fun _ r' =>
      r'.Honest setting g₀ busy ∧ ∀ {e : Edge}, r'.graph.hasEdge e →
        r.graph.hasEdge e ∧ ¬(e.source = x ∧ e.kind = kind) := by
  have hg := h.tidy.toMirrored
  refine (ResolveM.yields_removeOutgoing r x kind).weaken ?_
  rintro _ _ rfl
  refine ⟨h.removeTargets (.inl hx) hk _, fun {e} he => ?_⟩
  obtain ⟨hold, hgone⟩ := (hg.hasEdge_removeTargets (EdgeKind.not_isMembership_of_isResolution hk)
      (EdgeKind.ne_containedBy_of_isResolution hk) _).mp he
  refine ⟨hold, fun ⟨hs, hkind⟩ => hgone ⟨hs, hkind, ?_⟩⟩
  rw [hg.mem_targets_iff, ← hs, ← hkind]
  exact hold

/-- What is not declared can be resolved to anything. -/
theorem yields_setSingle_undeclared (h : r.Honest setting g₀ busy) (hx : g₀.declarations x = [])
    {target : SymbolId} {kind : EdgeKind} (hk : kind.isResolution) :
    r.Yields (ResolveM.setSingle x target kind) fun _ r' => r'.Honest setting g₀ busy := by
  refine (ResolveM.yields_setSingle r x target kind).weaken ?_
  rintro _ _ ⟨hs, ht, rfl⟩
  have h₁ := h.removeTargets (.inr hx) hk ((r.graph.targets x kind).filter (· != target))
  rw [← size_removeTargets r.graph x kind ((r.graph.targets x kind).filter (· != target))] at hs ht
  refine h₁.follow (h₁.tidy.addEdge hs ht (.inl hk) (fun _ hdecl => absurd hx hdecl)
    fun _ _ hdecl => absurd hx hdecl) (.addEdge hs ht fun _ =>
      .inr (h₁.tidy.declarations_eq x ▸ hx)) fun y hy => ?_
  rwa [isResolved_addEdge]

/-- A symbol that was being resolved is resolved by its only edge. If it is declared and that leads to
the error symbol, there must be an explanation. -/
theorem yields_setSingle (h : r.Honest setting g₀ (x :: busy)) {target : SymbolId}
    {kind : EdgeKind} (hk : kind.isResolution) (hs : kind.isSingleValued)
    (hfits : g₀.declarations x ≠ [] →
      ∃ symbolKind, g₀.kind? x = some symbolKind ∧ symbolKind.resolvesBy kind)
    (hstraight : g₀.declarations x ≠ [] → g₀.kind? x = some .alias →
      r.graph.kind? target ≠ some .alias)
    (herror : g₀.declarations x ≠ [] → target = WellKnown.error →
      r.Explains setting g₀ (x :: busy) ∨ setting.Knotted g₀ x) :
    r.Yields (ResolveM.setSingle x target kind) fun _ r' => r'.Honest setting g₀ busy ∧
      r'.graph.label? target = r.graph.label? target ∧ r'.graph.hasEdge ⟨x, target, kind⟩ ∧
        r'.graph.isResolved x := by
  have hmem : x ∈ x :: busy := List.mem_cons_self
  refine (ResolveM.yields_setSingle r x target kind).weaken ?_
  rintro _ _ ⟨hslt, htlt, rfl⟩
  let ends := (r.graph.targets x kind).filter (· != target)
  have hless : SameAnswers (x :: busy) r.graph (r.graph.removeTargets x kind ends) :=
    .removeTargets h.tidy.toMirrored (.inl hmem) hk ends
  have h₁ := h.removeTargets (.inl hmem) hk ends
  rw [← size_removeTargets r.graph x kind ends] at hslt htlt
  have hmore : SameAnswers (x :: busy) (r.graph.removeTargets x kind ends)
      ((r.graph.removeTargets x kind ends).addEdge ⟨x, target, kind⟩) :=
    .addEdge hslt htlt fun _ => .inl hmem
  have htidy := h₁.tidy.addEdge (e := ⟨x, target, kind⟩) hslt htlt (.inl hk) (fun _ => hfits)
    fun _ ha hdecl => by
      rw [kind?_congr (label?_removeTargets r.graph x kind ends target)]
      exact hstraight hdecl ha
  have h₂ := h₁.follow htidy hmore fun y hy => by rwa [isResolved_addEdge]
  have hedge : ((r.graph.removeTargets x kind ends).addEdge ⟨x, target, kind⟩).hasEdge
      ⟨x, target, kind⟩ := (hasEdge_addEdge hslt htlt).mpr (.inr (.inl rfl))
  refine ⟨h₂.close (fun ha hdecl => ?_) fun herr => ?_, ?_, hedge, h₂.marked x hmem⟩
  · obtain ⟨symbolKind, hkind, hby⟩ := hfits hdecl
    obtain rfl : symbolKind = .alias := Option.some.inj (hkind.symm.trans ha)
    have halias : SymbolKind.alias.resolvesBy .typedAs := rfl
    have hty : kind = .typedAs := SymbolKind.eq_of_resolvesBy halias hby rfl
    exact ⟨target, hty ▸ hedge⟩
  · have hdecl : g₀.declarations x ≠ [] := h₂.tidy.declarations_eq x ▸ herr.1
    obtain ⟨kind', hk', he⟩ := herr.2.2.exists_edge
    obtain ⟨symbolKind, hkind, hby⟩ := hfits hdecl
    obtain ⟨symbolKind', hkind', hby'⟩ := h₂.tidy.fits he hk' hdecl
    obtain rfl := Option.some.inj (hkind.symm.trans hkind')
    obtain rfl := SymbolKind.eq_of_resolvesBy hby hby' hs
    have honly := h.tidy.toMirrored.eq_target_of_hasEdge
      (EdgeKind.not_isMembership_of_isResolution hk) (EdgeKind.ne_containedBy_of_isResolution hk)
      hslt htlt he
    exact (herror hdecl honly.symm).imp_left fun hex => (hex.follow hless).follow hmore
  · exact (label?_addEdge _ _ _).trans (label?_removeTargets _ _ _ _ _)

/-- Work on a symbol is done once. While it is done the symbol is being resolved. -/
theorem yields_begin_else {α : Type} (h : r.Honest setting g₀ busy) {work rest : ResolveM α}
    {post : α → Resolution → Prop}
    (hwork : ∀ r' : Resolution, r'.Honest setting g₀ (x :: busy) → x ∉ busy → r'.Yields work post)
    (hrest : r.graph.isResolved x → r.Yields rest post) :
    r.Yields (do if ← ResolveM.begin x then work else rest) post :=
  ResolveM.yields_begin_else
    (fun hlt hnew => hwork _ (h.mark_open hlt fun _ => hnew) fun hmem => hnew (h.marked x hmem)) hrest

theorem yields_begin_then (h : r.Honest setting g₀ busy) {work : ResolveM Unit}
    (hwork : ∀ r' : Resolution, r'.Honest setting g₀ (x :: busy) →
      r'.Yields work fun _ r' => r'.Honest setting g₀ busy) :
    r.Yields (do if ← ResolveM.begin x then work) fun _ r' => r'.Honest setting g₀ busy :=
  h.yields_begin_else (fun r' h' _ => hwork r' h') fun _ => .pure h

/-- Work on a symbol that is itself resolved to nothing. -/
theorem yields_begin_inert (h : r.Honest setting g₀ busy) {work : ResolveM Unit}
    (hx : g₀.declarations x ≠ [] → ∃ kind, g₀.kind? x = some kind ∧ kind.isInert)
    (hwork : ∀ r' : Resolution, r'.Honest setting g₀ busy →
      r'.Yields work fun _ r' => r'.Honest setting g₀ busy) :
    r.Yields (do if ← ResolveM.begin x then work) fun _ r' => r'.Honest setting g₀ busy :=
  ResolveM.yields_begin_then h fun _ _ => hwork _ (h.mark_inert hx)

end Honest

end Resolution

/-! ### Before and after -/

/-- Declared symbols are resolved in the way of their kinds. What an alias stands for is no alias, and
an alias that counts as resolved stands for something. -/
structure SymbolGraph.Orderly (g : SymbolGraph) : Prop where
  fits : ∀ {e : Edge}, g.hasEdge e → e.kind.isResolution → g.declarations e.source ≠ [] →
    ∃ kind, g.kind? e.source = some kind ∧ kind.resolvesBy e.kind
  straight : ∀ {e : Edge}, g.hasEdge e → e.kind = .typedAs → g.kind? e.source = some .alias →
    g.declarations e.source ≠ [] → g.kind? e.target ≠ some .alias
  settled : ∀ {a}, g.kind? a = some .alias → g.declarations a ≠ [] → g.isResolved a →
    ∃ target, g.hasEdge ⟨a, target, .typedAs⟩

namespace Resolution

variable {setting : Setting} {g : SymbolGraph} {r : Resolution}

/-- Resolving begins while no symbol is being resolved. -/
theorem Honest.begin (h : g.Orderly) (hg : g.WellFormed) {log : List Diagnostic}
    (haccounted : (∃ d ∈ log, Workspace.isLookupMiss d) ∨ ∀ x, ¬g.Erroneous x) :
    Resolution.Honest setting g [] ⟨g, log⟩ where
  tidy := ⟨hg, .refl g, .inl, h.fits, h.straight⟩
  settled ha hdecl _ hr := h.settled ha hdecl hr
  marked _ hx := absurd hx List.not_mem_nil
  accounted := haccounted.imp .inl fun hno x _ => hno x

theorem Honest.orderly (h : r.Honest setting g []) : r.graph.Orderly where
  fits he hk hdecl := by
    rw [h.tidy.declarations_eq] at hdecl
    rw [h.tidy.kind?_eq hdecl]
    exact h.tidy.fits he hk hdecl
  straight he hk ha hdecl := by
    rw [h.tidy.declarations_eq] at hdecl
    exact h.tidy.straight he hk (h.tidy.kind?_eq hdecl ▸ ha) hdecl
  settled ha hdecl hr := by
    rw [h.tidy.declarations_eq] at hdecl
    exact h.settled (h.tidy.kind?_eq hdecl ▸ ha) hdecl List.not_mem_nil hr

end Resolution

end NameBinding
