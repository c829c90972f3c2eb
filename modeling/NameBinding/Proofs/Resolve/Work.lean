import NameBinding.Proofs.Resolve.Synthesis
import NameBinding.Resolve.Symbol

/-! # The work for one symbol

When the symbols that a given symbol asks for are resolved, the rest of its work adds the same
facts, whatever else was resolved before. -/

namespace NameBinding

open SymbolGraph ResolveM

namespace SymbolGraph

theorem collide_eq (g : SymbolGraph) (x y : SymbolId) : g.collide x y =
    ((g.label? x).any fun a => (g.label? y).any fun b =>
      a.name == b.name && a.kind.collides b.kind) := by
  rw [collide, label?, label?]
  cases g.get? x <;> cases g.get? y <;> rfl

theorem collide_congr {g g' : SymbolGraph} {x y : SymbolId} (hx : g'.label? x = g.label? x)
    (hy : g'.label? y = g.label? y) : g'.collide x y = g.collide x y := by
  rw [collide_eq, collide_eq, hx, hy]

end SymbolGraph

namespace Start

variable {b : Start} {x : SymbolId} {α β ι : Type}

/-! ### Reports that settle -/

theorem Settles.forM {opened : ι → List SymbolId} {f : ι → α → ResolveM Unit} (as : List α)
    (h : ∀ a ∈ as, b.Settles opened (fun i => f i a) fun _ => True) :
    b.Settles opened (fun i => as.forM (f i)) fun _ => True := by
  induction as with
  | nil => exact .pure True.intro
  | cons a as ih =>
      exact (h a List.mem_cons_self).bind fun _ _ => ih fun a ha => h a (List.mem_cons_of_mem _ ha)

theorem determines_declarations (hx : x < b.size) :
    b.Determines (declarations x) (· = b.graph.declarations x) :=
  ⟨_, [], rfl, fun _ s hs =>
    ⟨s, hs.resolves.declarations x ▸ .declarations (hs.lt_size hx), hs, Leads.nil b s⟩⟩

theorem determines_site {d : DeclId} (hd : d ∈ b.graph.declarations x) :
    b.Determines (site b.setting d) fun site => b.setting.site? d = some site := by
  obtain ⟨site, hsite⟩ := b.exists_site hd
  exact ⟨site, [], hsite, fun _ s hs => ⟨s, .site hsite, hs, Leads.nil b s⟩⟩

theorem isTree_of_site (b : Start) {d : DeclId} {site : DeclSite}
    (h : b.setting.site? d = some site) : site.tree.IsTree := by
  obtain ⟨u, hu, hsite⟩ := Option.bind_eq_some_iff.mp h
  obtain ⟨decl, -, rfl⟩ := Option.map_eq_some_iff.mp hsite
  exact b.trees u (List.mem_of_find?_eq_some hu)

theorem isTree_of_firstSite (b : Start) {site : DeclSite}
    (h : b.setting.firstSite? b.graph x = some site) : site.tree.IsTree := by
  obtain ⟨d, -, hsite⟩ := Option.bind_eq_some_iff.mp h
  exact b.isTree_of_site hsite

theorem determines_reportCollision {earlier later : SymbolId} (hearlier : earlier < b.size)
    (hlater : later < b.size) :
    b.Determines (reportCollision b.setting earlier later) fun _ => True := by
  unfold reportCollision
  refine .graph_bind (fun i s hs => ?_) ((settles_firstSite hlater).bind fun site _ => ?_)
  · rw [hs.name_eq hlater]
  · cases site with
    | none => exact .pure True.intro
    | some site =>
        refine (settles_firstSite hearlier).bind fun first _ => ?_
        cases first with
        | none => exact .report _
        | some first => exact .report _

theorem determines_checkCollisions (hx : x < b.size) :
    b.Determines (checkCollisions b.setting x) fun _ => True := by
  unfold checkCollisions
  split
  · refine .graph_bind (fun i s hs => ?_) (.forM _ fun p hp => ?_)
    · dsimp only
      rw [hs.resolves.members_eq b.sound.graph.toWellFormed hx]
      congr 1
      refine List.filter_congr fun p hp => ?_
      obtain ⟨hfirst, hlast⟩ := mem_of_mem_pairsFrom hp
      exact collide_congr
        (hs.resolves.label? (lt_size_of_mem_members b.sound.graph.toMirrored hfirst))
        (hs.resolves.label? (lt_size_of_mem_members b.sound.graph.toMirrored hlast))
    · obtain ⟨hfirst, hlast⟩ := mem_of_mem_pairsFrom (List.mem_of_mem_filter hp)
      exact determines_reportCollision (lt_size_of_mem_members b.sound.graph.toMirrored hfirst)
        (lt_size_of_mem_members b.sound.graph.toMirrored hlast)
  · exact .pure True.intro

theorem determines_reportImplementations (seen : Bool) {ds : List DeclId}
    (hds : ds ⊆ b.graph.declarations x) :
    b.Determines (reportImplementations b.setting seen ds) fun _ => True := by
  induction ds generalizing seen with
  | nil => exact .pure True.intro
  | cons d ds ih =>
      obtain ⟨hd, hds⟩ := List.cons_subset.mp hds
      rw [reportImplementations]
      refine (determines_site hd).bind fun site _ => ?_
      dsimp only
      split
      · exact (Settles.report _).bind fun _ _ => ih _ hds
      · exact ih _ hds

/-- The annotation that is chosen stands in a tree. -/
theorem determines_chooseTypeNode {chosen : Option (DeclSite × NodeRef)}
    (hchosen : ∀ c, chosen = some c → c.1.tree.IsTree) {ds : List DeclId}
    (hds : ds ⊆ b.graph.declarations x) : b.Determines (chooseTypeNode b.setting chosen ds)
      fun answer => ∀ c, answer = some c → c.1.tree.IsTree := by
  induction ds generalizing chosen with
  | nil => exact .pure hchosen
  | cons d ds ih =>
      obtain ⟨hd, hds⟩ := List.cons_subset.mp hds
      rw [chooseTypeNode]
      refine (determines_site hd).bind fun site hsite => ?_
      have htree : ∀ (node : NodeRef) (c : DeclSite × NodeRef), some (site, node) = some c →
          c.1.tree.IsTree := by
        rintro node _ ⟨⟩
        exact b.isTree_of_site hsite
      split
      · exact ih hchosen hds
      · exact .pure (htree _)
      · next node _ =>
        refine ih (fun c hc => ?_) hds
        cases chosen with
        | none => exact htree node c hc
        | some c' => exact hchosen c hc

/-- A constructor returns what does not depend on what was resolved before, as other signatures
do. -/
theorem makes_declaredReturn (hx : x < b.size) {site : DeclSite} (htree : site.tree.IsTree)
    {owner : SymbolId} : b.Makes owner (declaredReturn b.setting x site) := by
  unfold declaredReturn
  have hg := b.sound.graph.toWellFormed
  have hcontainer : ∀ {y}, b.graph.container? x = some y → y < b.size := by
    intro y hy
    unfold container? at hy
    rcases Option.or_eq_some_iff.mp hy with hy | ⟨-, hy⟩
    · exact (hg.lt_size (hg.mem_targets_iff.mp (List.mem_of_head? hy))).2
    rcases Option.or_eq_some_iff.mp hy with hy | ⟨-, hy⟩
    · exact (hg.lt_size (hg.mem_sources_iff.mp (List.mem_of_head? hy))).1
    · obtain ⟨e, he, rfl⟩ := Option.map_eq_some_iff.mp hy
      exact (hg.lt_size (hg.mem_incoming_iff.mp (List.mem_of_find?_eq_some he)).2).1
  refine .graph_bind (fun opened s hs => ?_) ?_
  · have hsame : (s.graph.container? x).bind s.graph.instanceType? =
        (b.graph.container? x).bind b.graph.instanceType? := by
      rw [hs.resolves.container?_eq hg hx]
      cases hc : b.graph.container? x with
      | none => rfl
      | some y => exact hs.resolves.instanceType?_eq hg (hcontainer hc)
    rw [hsame, has_congr (hs.resolves.label? hx)]
  · split
    · refine .pure ?_
      cases hinst : (b.graph.container? x).bind b.graph.instanceType? with
      | none => exact Nat.lt_of_lt_of_le (by decide) b.count_le
      | some inst =>
          obtain ⟨y, -, hy⟩ := Option.bind_eq_some_iff.mp hinst
          exact (hg.lt_size (hg.mem_targets_iff.mp (List.mem_of_head? hy))).2
    · exact makes_typeAt (fun _ hy => absurd hy List.not_mem_nil) htree _

/-! ### Work -/

/-- The step is the rest of the work for a symbol, and adds the same facts at all times. -/
structure Works (b : Start) (x : SymbolId) (m : ResolveM Unit) (new : Set Fact) : Prop where
  areTypeFacts : AreTypeFacts x new
  runs : ∀ {opened s}, b.Ready x 0 (x :: opened) s → x ∉ opened →
    ∃ s', s.Runs m () s' ∧ b.Valid opened s' ∧ b.Leads new s s'

theorem Ready.places {owner : SymbolId} {n : Nat} {opened : List SymbolId} {s : Scene}
    (h : b.Ready owner n opened s) {label : Symbol} (hlabel : b.graph.label? owner = some label) :
    s.Places owner (.given owner) label :=
  ⟨h.valid.lt_size h.given, h.valid.given h.given, (h.valid.resolves.label? h.given).trans hlabel⟩

theorem exists_works_of_determines {m : ResolveM Unit} (h : b.Determines m fun _ => True) :
    ∃ new, b.Works x m new := by
  obtain ⟨_, ds, -, h⟩ := h
  refine ⟨reports ds, .reports ds, fun {opened s} hs _ => ?_⟩
  obtain ⟨s', hr, hs', hl⟩ := h ⟨_, hs.clear⟩ s hs.valid
  exact ⟨s', hr, hs'.closes fun hk => absurd hk (hs.clear x List.mem_cons_self), hl⟩

/-- A symbol gets the type that a step makes. -/
theorem exists_works_of_makes (hx : x < b.size) {m : ResolveM SymbolId} (hm : b.Makes x m)
    {kind : EdgeKind} (hk : kind = .typedAs ∨ kind = .returnType) :
    ∃ new, b.Works x (m >>= fun type => setSingle x type kind) new := by
  obtain ⟨n', new, hnew, h⟩ := hm.typesPart 0 (.given x) hk
  obtain ⟨label, hlabel⟩ :=
    Option.isSome_iff_exists.mp ((isSome_label? b.graph x).trans (decide_eq_true hx))
  refine ⟨new, hnew, fun {opened s} hs hclosed => ?_⟩
  obtain ⟨y, s₁, s₂, hr, hr', hs₂, hl⟩ := h hs hclosed (hs.places hlabel)
  exact ⟨s₂, hr.bind hr', hs₂.valid, hl⟩

theorem exists_works_bind {m : ResolveM α} {f : α → ResolveM Unit} {Q : α → Prop}
    (hm : b.Determines m Q) (hf : ∀ a, Q a → ∃ new, b.Works x (f a) new) :
    ∃ new, b.Works x (m >>= f) new := by
  obtain ⟨a, ds, ha, hm⟩ := hm
  obtain ⟨new, hf⟩ := hf a ha
  refine ⟨reports ds ∪ new, (AreTypeFacts.reports ds).union hf.areTypeFacts,
    fun {opened s} hs hclosed => ?_⟩
  obtain ⟨s₁, hr, hs₁, hl⟩ := hm ⟨_, hs.clear⟩ s hs.valid
  have hnone : ∀ m label, Fact.symbol (.made x m) label ∉ reports ds := by
    rintro m label ⟨d, -, hf⟩
    cases hf
  obtain ⟨s₂, hr', hs₂, hl'⟩ := hf.runs (hs.advance hs₁ hl hnone) hclosed
  exact ⟨s₂, hr.bind hr', hs₂, hl.trans hl'⟩

/-- What remains to be done for a symbol when what it asks for is resolved. -/
def work (b : Start) (x : SymbolId) : ResolveM Unit :=
  match b.graph.kind? x with
  | some .module | some .dynamicModule | some .interface => checkCollisions b.setting x
  | some .classType => match b.graph.instanceType? x with
    | some inst => do
      checkCollisions b.setting inst
      checkCollisions b.setting x
    | none => pure ()
  | some .function | some .method => do
    reportImplementations b.setting false (← declarations x)
  | some .signature => do
    match ← firstSite b.setting x with
    | none => pure ()
    | some site => do
      let type ← declaredReturn b.setting x site
      setSingle x type .returnType
  | some .variable | some .field | some .parameter => do
    let type ← match ← chooseTypeNode b.setting none (← declarations x) with
      | some (site, some typeNode) =>
        typeAt b.setting ⟨site.tree, site.file, [], site.decl.parent⟩ (some typeNode)
      | _ => pure WellKnown.any
    setSingle x type .typedAs
  | _ => pure ()

/-- The rest of the work for a symbol adds the same facts at all times. -/
theorem exists_works (hx : x < b.size) : ∃ new, b.Works x (b.work x) new := by
  have hg := b.sound.graph.toWellFormed
  have hnothing : ∃ new, b.Works x (pure ()) new := exists_works_of_determines (.pure True.intro)
  have hcollisions : ∃ new, b.Works x (checkCollisions b.setting x) new :=
    exists_works_of_determines (determines_checkCollisions hx)
  have hfunction : ∃ new, b.Works x
      (declarations x >>= reportImplementations b.setting false) new := by
    refine exists_works_bind (determines_declarations hx) fun ds hds => ?_
    exact exists_works_of_determines
      (determines_reportImplementations false (x := x) (by rw [hds]; exact List.Subset.refl _))
  have hvalue : ∃ new, b.Works x (do
      let type ← match ← chooseTypeNode b.setting none (← declarations x) with
        | some (site, some typeNode) =>
          typeAt b.setting ⟨site.tree, site.file, [], site.decl.parent⟩ (some typeNode)
        | _ => pure WellKnown.any
      setSingle x type .typedAs) new := by
    refine exists_works_bind (determines_declarations hx) fun ds hds => ?_
    refine exists_works_bind (determines_chooseTypeNode (x := x)
      (fun _ hc => absurd hc (by simp)) (by rw [hds]; exact List.Subset.refl _))
        fun chosen hchosen => ?_
    split
    · next site typeNode =>
      have htree := hchosen _ rfl
      exact exists_works_of_makes hx (makes_typeAt (fun _ hy => absurd hy List.not_mem_nil) htree _)
        (.inl rfl)
    · exact exists_works_of_makes hx (.pure (Nat.lt_of_lt_of_le (by decide) b.count_le)) (.inl rfl)
  unfold work
  split
  · exact hcollisions
  · exact hcollisions
  · exact hcollisions
  · split
    · next inst hinst =>
      have hlt : inst < b.size :=
        (hg.lt_size (hg.mem_targets_iff.mp (List.mem_of_head? hinst))).2
      exact exists_works_of_determines ((determines_checkCollisions hlt).bind fun _ _ =>
        determines_checkCollisions hx)
    · exact hnothing
  · exact hfunction
  · exact hfunction
  · refine exists_works_bind (settles_firstSite hx) fun site hsite => ?_
    cases site with
    | none => exact hnothing
    | some site =>
        exact exists_works_of_makes hx
          (makes_declaredReturn hx (b.isTree_of_firstSite hsite.symm)) (.inr rfl)
  iterate 3 exact hvalue
  · exact hnothing

end Start

end NameBinding
