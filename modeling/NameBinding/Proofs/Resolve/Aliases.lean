import NameBinding.Proofs.Resolve.Names
import NameBinding.Resolve.TypeNode

/-! # Aliases settle

An alias that is being resolved stands for nothing, so what another one stands for could depend on
which is resolved first. Ranks rule this out. Main statement: an alias stands for what it stands for
if it is resolved first, and reports the same. -/

namespace NameBinding

open SymbolGraph ResolveM

namespace Start

variable {b : Start} {s : Scene} {ι : Type}

/-! ### One alias -/

section Alias

variable {a : SymbolId}

/-- An alias stands for what it stands for if it is resolved first, whatever was resolved before.
Aliases that are being resolved have larger ranks. -/
structure AliasSettles (b : Start) (a : SymbolId) : Prop where
  usable : b.Usable (b.aliasValue a)
  settles : ∀ {hops opened s}, b.rank a < hops →
    (∀ y ∈ opened, b.graph.kind? y = some .alias → b.rank a < b.rank y) → b.Valid opened s →
    ∃ s', s.Runs (resolveAliasWithin b.setting hops a) (b.aliasValue a) s' ∧ b.Valid opened s' ∧
      b.Leads (reports (b.aliasReports a)) s s' ∧ s'.graph.isResolved a

/-- Whenever an alias was not resolved it is pointed at the symbol, and the problems are reported.
Aliases that are being resolved have larger ranks. -/
def Points (b : Start) (a v : SymbolId) (ds : List Diagnostic) : Prop :=
  ∀ {hops opened s}, b.rank a < hops →
    (∀ y ∈ opened, b.graph.kind? y = some .alias → b.rank a < b.rank y) → b.Valid opened s →
    ¬s.graph.isResolved a → ∃ s', s.Runs (resolveAliasWithin b.setting hops a) v
      (s'.setGraph (s'.graph.addEdge ⟨a, v, .typedAs⟩)) ∧ b.Valid (a :: opened) s' ∧
        b.Leads ({.marked a} ∪ reports ds) s s'

/-- A call that resolves an alias: the aliases that may be followed from it, and what is open
around it. -/
structure AliasCall (b : Start) (a : SymbolId) where
  hops : Nat
  outer : List SymbolId
  rank_le : b.rank a ≤ hops
  rank_outer : ∀ y ∈ outer, b.graph.kind? y = some .alias → b.rank a < b.rank y

namespace AliasCall

abbrev opened (call : b.AliasCall a) : List SymbolId := a :: call.outer

/-- How the aliases on the way are resolved. -/
abbrev resolve (call : b.AliasCall a) : SymbolId → ResolveM SymbolId :=
  resolveAliasWithin b.setting call.hops

end AliasCall

theorem runs_settledTarget (s : Scene) (x : SymbolId) :
    s.Runs (settledTarget x) ((s.graph.firstTarget x .typedAs).getD WellKnown.error) s := rfl

/-- A resolved alias answers with its edge, however it is asked. -/
theorem runs_resolveAliasWithin_of_isResolved {setting : Setting} (hops : Nat)
    (hr : s.graph.isResolved a) : s.Runs (resolveAliasWithin setting hops a)
      ((s.graph.firstTarget a .typedAs).getD WellKnown.error) s := by
  cases hops with
  | zero => exact (Scene.Runs.begin_of_isResolved hr).bind (runs_settledTarget s a)
  | succ hops => exact (Scene.Runs.begin_of_isResolved hr).bind (runs_settledTarget s a)

theorem runs_settle {resolve : SymbolId → ResolveM SymbolId} {s' : Scene} {v : SymbolId}
    (h : ¬s.graph.isResolved a → s.Runs (resolve a) v s')
    (hr : s.graph.isResolved a → s.Runs (settledTarget a) v s') :
    s.Runs (settle resolve a) v s' := by
  refine .graph_bind ?_
  split
  · next hres => exact hr hres
  · next hres => exact h hres

theorem runs_settle_resolveAliasWithin {setting : Setting} {hops : Nat} {s' : Scene}
    {v : SymbolId} (h : s.Runs (resolveAliasWithin setting hops a) v s') :
    s.Runs (settle (resolveAliasWithin setting hops) a) v s' := by
  refine runs_settle (fun _ => h) fun hr => ?_
  have hsame : EStateM.Result.ok v s'.resolution =
      .ok ((s.graph.firstTarget a .typedAs).getD WellKnown.error) s.resolution :=
    h.symm.trans (runs_resolveAliasWithin_of_isResolved hops hr)
  exact (runs_settledTarget s a).trans hsame.symm

variable (ha : b.graph.kind? a = some .alias)
  (ih : ∀ c, b.graph.kind? c = some .alias → b.rank c < b.rank a → b.AliasSettles c)

include ha ih

/-- The aliases of smaller rank settle. -/
theorem settles_resolve {c : SymbolId} (hc : b.graph.kind? c = some .alias)
    (hrank : b.rank c < b.rank a) :
    b.Settles (fun call : b.AliasCall a => call.opened) (fun call => call.resolve c) b.Usable := by
  refine ⟨b.aliasValue c, b.aliasReports c, (ih c hc hrank).usable, fun call s hs => ?_⟩
  have houter : ∀ y ∈ call.opened, b.graph.kind? y = some .alias → b.rank c < b.rank y := by
    intro y hy hk
    rcases List.mem_cons.mp hy with rfl | hy
    · exact hrank
    · exact Nat.lt_trans hrank (call.rank_outer y hy hk)
  obtain ⟨s', hr, hs', hl, -⟩ :=
    (ih c hc hrank).settles (Nat.lt_of_lt_of_le hrank call.rank_le) houter hs
  exact ⟨s', hr, hs', hl⟩

omit ih in
/-- While an alias is being resolved it stands for nothing. -/
theorem settles_settle_self :
    b.Settles (fun call : b.AliasCall a => call.opened) (fun call => settle call.resolve a)
      b.Usable := by
  refine ⟨WellKnown.error, [], b.usable_error, fun call s hs => ⟨s, ?_, hs, Leads.nil b s⟩⟩
  have hopen : a ∈ call.opened := List.mem_cons_self
  have hr : s.graph.isResolved a := (hs.opened_lt a hopen).2 (lt_size_of_kind? ha)
  have hnone : s.graph.firstTarget a .typedAs = none := by
    rw [firstTarget, List.head?_eq_none_iff, List.eq_nil_iff_forall_not_mem]
    exact fun x hx => (hs.typed (hs.wellFormed.mem_targets_iff.mp hx) (.inl rfl)).1 hopen
  refine runs_settle (fun hn => absurd hr hn) fun _ => ?_
  have hruns := runs_settledTarget s a
  rwa [hnone] at hruns

theorem settles_namedTarget (site : DeclSite) (reference : NodeRef)
    (hranked : ∀ c, b.graph.kind? c = some .alias → b.graph.declarations c ≠ [] → c ≠ a →
      b.graph.name c ∈ site.tree.entityName reference → b.rank c < b.rank a) :
    b.Settles (fun call : b.AliasCall a => call.opened)
      (fun call => namedTarget b.setting call.resolve a site reference) b.Usable := by
  have halias : b.AliasesSettle (fun call : b.AliasCall a => call.opened)
      (fun call => settle call.resolve) (site.tree.entityName reference) := by
    intro c hfound hc
    by_cases hca : c = a
    · rw [hca]
      exact settles_settle_self ha
    · have hrank := hranked c hc hfound.declared hca hfound.name_mem
      obtain ⟨v, ds, hv, h⟩ := settles_resolve ha ih hc hrank
      refine ⟨v, ds, hv, fun call s hs => ?_⟩
      obtain ⟨s', hr, hs', hl⟩ := h call s hs
      exact ⟨s', runs_settle_resolveAliasWithin hr, hs', hl⟩
  simp only [namedTarget]
  refine .bind (settles_lookupPath halias (fun _ hx => absurd hx List.not_mem_nil) _ _)
    fun found hfound => ?_
  cases found with
  | none => exact .missing _ b.usable_error
  | some found =>
      have hfound := hfound found rfl
      dsimp only
      split
      · exact .missing _ b.usable_error
      · next hne =>
        refine .graph_bind (fun call s hs => ?_) ?_
        · rw [hs.kind?_eq hfound.lt_size]
        · split
          · next hk =>
            have hk := beq_iff_eq.mp hk
            exact settles_resolve ha ih hk (hranked found hk hfound.declared hne hfound.name_mem)
          · exact .pure hfound.usable

omit ha ih in
theorem settles_requiredModule {opened : ι → List SymbolId} (site : DeclSite)
    (reference : NodeRef) :
    b.Settles opened (fun _ => requiredModule b.setting site reference) b.Usable := by
  simp only [requiredModule]
  have hfind : ∀ i s, b.Valid (opened i) s →
      (b.setting.program.globalSymbols (site.tree.nameText reference)).find?
        (fun id => s.graph.kind? id == some .dynamicModule) =
      (b.setting.program.globalSymbols (site.tree.nameText reference)).find?
        (fun id => b.graph.kind? id == some .dynamicModule) := by
    intro i s hs
    rw [← List.head?_filter, ← List.head?_filter]
    refine congrArg List.head? (List.filter_congr fun x hx => ?_)
    rw [hs.kind?_eq (b.global hx)]
  refine .graph_bind (fun i s hs => ?_) ?_
  · rw [hfind i s hs]
  · split
    · next found hfound =>
      have hk := List.find?_some hfound
      have hkind : b.graph.kind? found = some .dynamicModule := beq_iff_eq.mp hk
      exact .pure (.of_kind hkind (by decide))
    · exact .missing _ b.usable_error

theorem settles_declaredTarget :
    b.Settles (fun call : b.AliasCall a => call.opened)
      (fun call => declaredTarget b.setting call.resolve a) b.Usable := by
  simp only [declaredTarget]
  refine .bind (settles_firstSite (lt_size_of_kind? ha)) fun site hsite => ?_
  cases site with
  | none => exact .pure b.usable_error
  | some site =>
      dsimp only
      split
      · next i hrecord =>
        split
        · exact settles_requiredModule site i.reference
        · next hnamed =>
          refine settles_namedTarget ha ih site i.reference fun c hc hdecl hca hname => ?_
          refine b.ranked ha hc hdecl hca ?_
          rw [Setting.aliasPath, ← hsite]
          dsimp only
          rw [hrecord]
          dsimp only
          rwa [if_neg hnamed]
      · exact .pure b.usable_error

/-- An alias that was not resolved is pointed at what its declaration names. -/
theorem exists_points : ∃ v ds, b.Usable v ∧ b.Points a v ds := by
  obtain ⟨v, ds, hv, h⟩ := settles_declaredTarget ha ih
  have hlt : a < b.size := lt_size_of_kind? ha
  refine ⟨v, ds, hv, fun {hops opened s} hrank houter hs hr => ?_⟩
  obtain ⟨hops, rfl⟩ : ∃ n, hops = n + 1 := ⟨hops - 1, by omega⟩
  have hmarked : b.Valid (a :: opened) (s.mark a) := by
    refine hs.mark (hs.lt_size hlt) (List.subset_cons_self a opened) (fun y hy => ?_)
      (fun _ => .inr ⟨hlt, hr⟩) fun _ => .inl List.mem_cons_self
    exact (List.mem_cons.mp hy).symm
  obtain ⟨s', hruns, hs', hl⟩ := h ⟨hops, opened, Nat.le_of_lt_succ hrank, houter⟩ _ hmarked
  refine ⟨s', ?_, hs', ((leads_mark b s (hs.lt_size hlt)).congr fun f => ?_).trans hl⟩
  · refine (Scene.Runs.begin (hs.lt_size hlt) hr).bind (hruns.bind ?_)
    have hnone : s'.graph.targets a .typedAs = [] := by
      refine List.eq_nil_iff_forall_not_mem.mpr fun x hx => ?_
      exact (hs'.typed (hs'.wellFormed.mem_targets_iff.mp hx) (.inl rfl)).1 List.mem_cons_self
    exact (Scene.Runs.setSingle (hs'.lt_size hlt) (hs'.lt_size hv.lt_size) hnone).bind (.pure _ v)
  · exact ⟨fun hf => ⟨hlt, hf⟩, And.right⟩

namespace Points

variable {v : SymbolId} {ds : List Diagnostic} (h : b.Points a v ds)

omit ih

include h

/-- What is found if the alias is resolved first is what is found at any time. -/
theorem first : b.aliasValue a = v ∧ ∀ d, d ∈ b.aliasReports a ↔ d ∈ ds := by
  obtain ⟨s', hruns, -, hl⟩ := h (b.rank_lt ha) (fun _ hy => absurd hy List.not_mem_nil)
    (b.valid_scene []) (b.unmarked a)
  have hrun : resolveAliasWithin b.setting Limits.aliasDepth a ⟨b.graph, []⟩ = _ := hruns
  constructor
  · rw [aliasValue, resolveAlias, hrun]
  · intro d
    have hreports : b.aliasReports a = s'.diagnostics := by
      rw [aliasReports, resolveAlias, hrun]
      rfl
    rw [hreports, hl.mem_diagnostics_iff]
    constructor
    · rintro (hf | hf)
      · cases hf
      · exact reported_mem_reports.mp hf
    · exact fun hd => .inr (reported_mem_reports.mpr hd)

variable {hops : Nat} {opened : List SymbolId}

/-- The edge of the alias closes it. -/
theorem settles (hv : b.Usable v) (hrank : b.rank a < hops)
    (houter : ∀ y ∈ opened, b.graph.kind? y = some .alias → b.rank a < b.rank y)
    (hs : b.Valid opened s) (hr : ¬s.graph.isResolved a) :
    ∃ s', s.Runs (resolveAliasWithin b.setting hops a) (b.aliasValue a) s' ∧ b.Valid opened s' ∧
      b.Leads (reports (b.aliasReports a)) s s' ∧ s'.graph.isResolved a := by
  obtain ⟨rfl, hsame⟩ := h.first ha
  have hlt : a < b.size := lt_size_of_kind? ha
  have hclosed : a ∉ opened := fun hmem => Nat.lt_irrefl _ (houter a hmem ha)
  obtain ⟨s', hruns, hs', hl⟩ := h hrank houter hs hr
  have hends : a < s'.graph.size ∧ b.aliasValue a < s'.graph.size :=
    ⟨hs'.lt_size hlt, hs'.lt_size hv.lt_size⟩
  have hadd := leads_addEdge (e := ⟨a, b.aliasValue a, .typedAs⟩) hends.1 hends.2 b
  have hmarked : s'.graph.isResolved a := (hl.adds (f := .marked a) (.inl rfl)).2
  refine ⟨_, hruns, ?_, (hl.trans hadd).absorb ?_ ?_, ?_⟩
  · refine hs'.type hends.1 hends.2 ?_ (.inl rfl) rfl hclosed
      fun _ => ⟨rfl, rfl, fun d hd => ?_⟩
    · exact hs'.resolves.change (.point _ rfl hends.1 hends.2 (by simp))
    · exact hl.adds (.inr ⟨d, (hsame d).mp hd, rfl⟩)
  · rintro f ⟨d, hd, rfl⟩
    exact .inl (.inr ⟨d, (hsame d).mp hd, rfl⟩)
  · rintro f ((rfl | ⟨d, hd, rfl⟩) | (rfl | ⟨hm, -⟩))
    · exact .inr (.marked ha)
    · exact .inl ⟨d, (hsame d).mpr hd, rfl⟩
    · rw [hs'.given hlt, hs'.given hv.lt_size]
      exact .inr (.edge ha)
    · simp [EdgeKind.isMembership] at hm
  · exact (isResolved_addEdge _ _ _).trans hmarked

end Points

omit ih in
/-- An alias that was resolved answers with its edge. -/
theorem settles_of_isResolved {opened : List SymbolId} (hops : Nat) (hclosed : a ∉ opened)
    (hs : b.Valid opened s) (hr : s.graph.isResolved a) :
    s.Runs (resolveAliasWithin b.setting hops a) (b.aliasValue a) s ∧
      b.Leads (reports (b.aliasReports a)) s s := by
  obtain ⟨htarget, hds⟩ := hs.aliased ha hr hclosed
  refine ⟨?_, .refl fun f ⟨d, hd, hf⟩ => hf ▸ hds hd⟩
  have hruns : s.Runs (resolveAliasWithin b.setting hops a) _ s :=
    runs_resolveAliasWithin_of_isResolved hops hr
  rwa [firstTarget, htarget] at hruns

end Alias

/-- An alias stands for what it stands for if it is resolved first. By induction on its rank. -/
theorem aliasSettles (b : Start) {a : SymbolId} (ha : b.graph.kind? a = some .alias) :
    b.AliasSettles a := by
  induction hn : b.rank a using Nat.strongRecOn generalizing a with
  | ind n ih =>
    have ih : ∀ c, b.graph.kind? c = some .alias → b.rank c < b.rank a → b.AliasSettles c :=
      fun c hc hlt => ih _ (hn ▸ hlt) hc rfl
    obtain ⟨v, ds, hv, h⟩ := exists_points ha ih
    have hvalue : b.aliasValue a = v := (h.first ha).1
    refine ⟨hvalue ▸ hv, fun {hops opened s} hrank houter hs => ?_⟩
    by_cases hr : s.graph.isResolved a
    · have hclosed : a ∉ opened := fun hmem => Nat.lt_irrefl _ (houter a hmem ha)
      obtain ⟨hruns, hl⟩ := settles_of_isResolved ha hops hclosed hs hr
      exact ⟨s, hruns, hs, hl, hr⟩
    · exact h.settles ha hv hrank houter hs hr

/-! ### Names while no alias is being resolved -/

/-- No alias is being resolved. -/
def IsClear (b : Start) (opened : List SymbolId) : Prop :=
  ∀ y ∈ opened, b.graph.kind? y ≠ some .alias

/-- Whenever no alias is being resolved, the step gives one answer and reports the same. -/
abbrev Determines {α : Type} (b : Start) (m : ResolveM α) (Q : α → Prop) : Prop :=
  b.Settles (fun opened : {opened // b.IsClear opened} => opened.1) (fun _ => m) Q

theorem isClear_nil (b : Start) : b.IsClear [] := fun _ hy => absurd hy List.not_mem_nil

theorem IsClear.cons {opened : List SymbolId} {x : SymbolId} (h : b.IsClear opened)
    (hx : b.graph.kind? x ≠ some .alias) : b.IsClear (x :: opened) :=
  List.forall_mem_cons.mpr ⟨hx, h⟩

variable {a : SymbolId}

theorem runs_aliasTarget {opened : List SymbolId} (hclear : b.IsClear opened)
    (ha : b.graph.kind? a = some .alias) (hs : b.Valid opened s) :
    ∃ s', s.Runs (resolveAlias b.setting a) (b.aliasValue a) s' ∧
      s.Runs (aliasTarget b.setting a) (b.aliasValue a) s' ∧ b.Valid opened s' ∧
        b.Leads (reports (b.aliasReports a)) s s' ∧ s'.graph.isResolved a := by
  obtain ⟨s', hr, hs', hl⟩ := (b.aliasSettles ha).settles (b.rank_lt ha)
    (fun y hy hk => absurd hk (hclear y hy)) hs
  exact ⟨s', hr, runs_settle_resolveAliasWithin hr, hs', hl⟩

theorem determines_aliasTarget (ha : b.graph.kind? a = some .alias) :
    b.Determines (aliasTarget b.setting a) b.Usable := by
  refine ⟨b.aliasValue a, b.aliasReports a, (b.aliasSettles ha).usable, fun opened s hs => ?_⟩
  obtain ⟨s', -, hr, hs', hl, -⟩ := runs_aliasTarget opened.2 ha hs
  exact ⟨s', hr, hs', hl⟩

theorem determines_findPath (segments : List String) {context : List SymbolId}
    (hcontext : ∀ x ∈ context, x < b.size) (enclosing : Option DeclId) (meaning : Meaning) :
    b.Determines (findPath b.setting segments context enclosing meaning)
      (b.FoundOption segments) :=
  settles_lookupPath (fun _ _ hc => determines_aliasTarget hc) hcontext enclosing meaning

theorem determines_typeDenoted {x : SymbolId} (hx : b.Usable x) :
    b.Determines (typeDenoted x) (· < b.size) := by
  simp only [typeDenoted]
  refine .graph_bind (fun i s hs => ?_) ?_
  · rw [hs.kind?_eq hx.lt_size, hs.resolves.instanceType?_eq b.sound.graph.toWellFormed hx.lt_size]
  · split
    · exact .pure b.usable_error.lt_size
    · next hk =>
      obtain ⟨inst, hinst⟩ := hx.side hk
      rw [hinst]
      have hmem : inst ∈ b.graph.targets x .instanceType := List.mem_of_head? hinst
      exact .pure (b.sound.graph.lt_size (b.sound.graph.mem_targets_iff.mp hmem)).2
    · exact .pure hx.lt_size
    · next hnone =>
      have hsome := isSome_get? b.graph x
      simp [SymbolGraph.kind?] at hnone
      simp [hnone, hx.lt_size] at hsome

theorem determines_asType {x : SymbolId} (hx : b.Usable x) :
    b.Determines (asType b.setting x) (· < b.size) := by
  simp only [asType_eq]
  refine .graph_bind (fun i s hs => ?_) ?_
  · rw [hs.kind?_eq hx.lt_size]
  · split
    · next hk =>
      exact (determines_aliasTarget (beq_iff_eq.mp hk)).bind fun _ => determines_typeDenoted
    · exact determines_typeDenoted hx

theorem determines_namedType {place : TypePlace} (hcontext : ∀ x ∈ place.context, x < b.size)
    (name reported : NodeRef) :
    b.Determines (namedType b.setting place name reported) (· < b.size) := by
  simp only [namedType]
  refine (determines_findPath _ hcontext _ _).bind fun found hfound => ?_
  cases found with
  | none => exact .missing _ b.usable_error.lt_size
  | some found =>
      refine (determines_asType (hfound found rfl).usable).bind fun type htype => ?_
      refine .graph_bind (fun i s hs => ?_) ?_
      · rw [hs.kind?_eq htype]
      · split
        · exact .pure htype
        · exact .missing _ b.usable_error.lt_size

theorem determines_baseFound (site : DeclSite) (notObject : Nat) (entry : NodeRef)
    {segments : List String} {found : Option SymbolId} (hfound : b.FoundOption segments found) :
    b.Determines (baseFound b.setting site notObject entry found)
      fun base => ∀ x, base = some x → x < b.size := by
  have herror : ∀ x, some WellKnown.error = some x → x < b.size := by
    rintro _ ⟨⟩
    exact b.usable_error.lt_size
  cases found with
  | none => exact .missing _ herror
  | some found =>
      refine (determines_asType (hfound found rfl).usable).bind fun type htype => ?_
      refine .graph_bind (fun i s hs => ?_) ?_
      · rw [hs.kind?_eq htype]
      · dsimp only
        split
        · refine .pure ?_
          rintro _ ⟨⟩
          exact htype
        · exact .missing _ (fun _ h => absurd h (by simp))

/-- What an entry among the bases denotes. -/
theorem determines_heritageTarget (site : DeclSite) (notObject : Nat) (entry : NodeRef) :
    b.Determines (heritageTarget b.setting site notObject entry)
      fun base => ∀ x, base = some x → x < b.size := by
  simp only [heritageTarget_eq]
  refine (determines_findPath _ (fun _ hx => absurd hx List.not_mem_nil) _ _).bind
    fun found hfound => ?_
  cases found with
  | none =>
      exact (determines_findPath _ (fun _ hx => absurd hx List.not_mem_nil) _ _).bind
        fun found hfound => determines_baseFound site notObject entry hfound
  | some found => exact determines_baseFound site notObject entry hfound

end Start

end NameBinding
