import NameBinding.Proofs.Resolve.Honest

/-! # Aliases that stand for the error symbol

An alias that is followed stands for the error symbol because a name was not found, or because it
comes up behind too many others: one of them was asked for and is being resolved still, or was the
last one to be followed. -/

namespace NameBinding

open SymbolGraph Resolution

/-- What is known of a graph where resolving begins. -/
structure Outset (setting : Setting) (g : SymbolGraph) : Prop where
  error : g.kind? WellKnown.error = some .error
  undeclared : g.declarations WellKnown.error = []
  sides : ∀ {x y}, g.hasEdge ⟨x, y, .instanceType⟩ →
    g.kind? x = some .classType ∧ g.kind? y = some .instanceType
  arrays : ∀ {e : Edge}, g.hasEdge e → e.kind = .arrayOf → g.kind? e.source = some .array
  signatures : ∀ {x y}, g.hasEdge ⟨x, y, .callSignature⟩ → g.declarations y ≠ [] →
    g.kind? y = some .signature
  parameters : ∀ {x y}, g.hasEdge ⟨x, y, .parameter⟩ → g.declarations y ≠ [] →
    g.kind? y = some .parameter
  /-- Aliases come from imports. -/
  imports : ∀ {a site}, g.kind? a = some .alias → setting.firstSite? g a = some site →
    ∃ i, site.tree.record? site.decl.node = some (.importEquals i)

theorem Outset.ne_error {setting : Setting} {g : SymbolGraph} {x : SymbolId} {kind : SymbolKind}
    (h : Outset setting g) (hx : g.kind? x = some kind) (hk : kind ≠ .error) :
    x ≠ WellKnown.error := by
  rintro rfl
  exact hk (Option.some.inj (hx.symm.trans h.error))

namespace ResolveM

variable {setting : Setting} {g₀ : SymbolGraph} {busy : List SymbolId} {r : Resolution}
  {segments : List String} {a x : SymbolId}

/-! ### Looking names up -/

/-- What is found, if something is found, is declared and has one of the names. -/
def Finds (g₀ : SymbolGraph) (segments : List String) (found : Option SymbolId) : Prop :=
  ∀ x, found = some x → g₀.declarations x ≠ [] ∧ g₀.name x ∈ segments

theorem finds_none (g₀ : SymbolGraph) (segments : List String) : Finds g₀ segments none :=
  fun _ h => absurd h (by simp)

theorem finds_of_admits (h : g₀.Tidy r.graph) {segment : String} {meaning : Meaning}
    (hx : r.graph.admits segment meaning x) :
    g₀.declarations x ≠ [] ∧ g₀.name x = segment := by
  obtain ⟨hname, hdecl⟩ := of_admits hx
  rw [h.declarations_eq] at hdecl
  exact ⟨hdecl, (h.name_eq hdecl).symm.trans hname⟩

section Search

variable {aliasTarget : SymbolId → ResolveM SymbolId}
  (halias : ∀ r : Resolution, r.Honest setting g₀ busy → ∀ c, g₀.kind? c = some .alias →
    g₀.declarations c ≠ [] → g₀.name c ∈ segments →
      r.Yields (aliasTarget c) fun _ r' => r'.Honest setting g₀ busy)

include halias

/-- By induction on the segments that are left. -/
theorem yields_walkMembers (h : r.Honest setting g₀ busy) (meaning : Meaning) {current : SymbolId}
    (hdecl : g₀.declarations current ≠ []) (hname : g₀.name current ∈ segments)
    {rest : List String} (hrest : rest ⊆ segments) :
    r.Yields (walkMembers aliasTarget meaning current rest) fun found r' =>
      r'.Honest setting g₀ busy ∧ Finds g₀ segments found := by
  induction rest generalizing r current with
  | nil =>
      refine .pure ⟨h, ?_⟩
      rintro _ ⟨⟩
      exact ⟨hdecl, hname⟩
  | cons segment rest ih =>
      obtain ⟨hsegment, hrest⟩ := List.cons_subset.mp hrest
      have hgo : ∀ holder (r : Resolution), r.Honest setting g₀ busy →
          r.Yields (walkOn aliasTarget meaning segment rest holder) fun found r' =>
              r'.Honest setting g₀ busy ∧ Finds g₀ segments found := by
        refine fun holder r h => .graph_bind ?_
        split
        · next next hnext =>
          obtain ⟨hdecl, hname⟩ := finds_of_admits h.tidy (List.find?_some hnext)
          exact ih h hdecl (hname ▸ hsegment) hrest
        · exact .pure ⟨h, finds_none g₀ segments⟩
      rw [walkMembers_cons]
      refine .graph_bind ?_
      split
      · next hk =>
        rw [beq_iff_eq, h.tidy.kind?_eq hdecl] at hk
        exact (halias r h current hk hdecl hname).bind fun holder r' h' => hgo holder r' h'
      · exact hgo current r h

theorem yields_lookupAmong (h : r.Honest setting g₀ busy) (candidates : List SymbolId)
    (meaning : Meaning) : r.Yields (lookupAmong aliasTarget candidates segments meaning)
      fun found r' => r'.Honest setting g₀ busy ∧ Finds g₀ segments found := by
  unfold lookupAmong
  split
  · exact .pure ⟨h, finds_none g₀ _⟩
  · next first rest =>
    have hfound : ∀ x ∈ candidates.filter (r.graph.admits first (meaning.atSegment rest)),
        g₀.declarations x ≠ [] ∧ g₀.name x = first := fun x hx =>
      finds_of_admits h.tidy (List.mem_filter.mp hx).2
    refine .graph_bind (.findSomeM? h (finds_none g₀ _) _ fun x hx r' h' => ?_)
    obtain ⟨hdecl, hname⟩ := hfound x hx
    exact yields_walkMembers halias h' meaning hdecl (hname ▸ List.mem_cons_self)
      (List.subset_cons_self _ _)

/-- Whatever the context and the place. -/
theorem yields_lookupPath (h : r.Honest setting g₀ busy) (context : List SymbolId)
    (enclosing : Option DeclId) (meaning : Meaning) :
    r.Yields (lookupPath aliasTarget setting segments context enclosing meaning) fun found r' =>
      r'.Honest setting g₀ busy ∧ Finds g₀ segments found := by
  unfold lookupPath
  split
  · exact .pure ⟨h, finds_none g₀ _⟩
  · refine Yields.bind (.findSomeM? h (finds_none g₀ segments) _ fun anchor _ r' h' => ?_)
      fun found r' h' => ?_
    · exact .graph_bind (yields_lookupAmong halias h' _ meaning)
    · cases found with
      | some found => exact .pure h'
      | none => exact yields_lookupAmong halias h'.1 _ meaning

end Search

/-! ### Aliases -/

variable (ho : Outset setting g₀)

include ho

theorem kind?_error (h : r.Honest setting g₀ busy) :
    r.graph.kind? WellKnown.error = some .error := h.tidy.follows.kind? ho.error

theorem kind?_error_ne_alias (h : r.Honest setting g₀ busy) :
    r.graph.kind? WellKnown.error ≠ some .alias := by
  rw [kind?_error ho h]
  simp

/-- What was not found is reported. -/
theorem yields_missing (h : r.Honest setting g₀ busy) {d : Diagnostic}
    (hd : Workspace.isLookupMiss d) :
    r.Yields (do report d; return WellKnown.error) fun target r' => r'.Honest setting g₀ busy ∧
      r'.graph.kind? target ≠ some .alias ∧ r'.Explains setting g₀ busy :=
  (h.yields_report d).bind fun _ _ hr' =>
    .pure ⟨hr'.1, kind?_error_ne_alias ho hr'.1, hr'.2 hd⟩

/-- What an alias was resolved to. While it is being resolved that is nothing yet. -/
theorem yields_settledTarget (h : r.Honest setting g₀ busy) (ha : g₀.kind? a = some .alias)
    (hdecl : g₀.declarations a ≠ []) (hr : r.graph.isResolved a) :
    r.Yields (settledTarget a) fun target r' => r'.Honest setting g₀ busy ∧
      r'.graph.kind? target ≠ some .alias ∧
        (target = WellKnown.error → r'.Explains setting g₀ busy ∨ a ∈ busy) := by
  have hg := h.tidy.toMirrored
  refine .graph_bind (.pure ⟨h, ?_⟩)
  cases ht : r.graph.firstTarget a .typedAs with
  | none =>
      refine ⟨kind?_error_ne_alias ho h, fun _ => .inr (by_contra fun hout => ?_)⟩
      obtain ⟨target, he⟩ := h.settled ha hdecl hout hr
      have hmem := hg.mem_targets_iff.mpr he
      rw [List.head?_eq_none_iff.mp ht] at hmem
      exact absurd hmem List.not_mem_nil
  | some target =>
      have he := hg.mem_targets_iff.mp (List.mem_of_head? ht)
      refine ⟨h.tidy.straight he rfl ha hdecl, ?_⟩
      rintro rfl
      refine or_iff_not_imp_right.mpr fun hout => h.explains hout ⟨?_, hr, .typedAs, by simp, he⟩
      rwa [h.tidy.declarations_eq]

theorem yields_requiredModule (h : r.Honest setting g₀ busy) (site : DeclSite)
    (reference : NodeRef) : r.Yields (requiredModule setting site reference) fun target r' =>
      r'.Honest setting g₀ busy ∧ r'.graph.kind? target ≠ some .alias ∧
        (target = WellKnown.error → r'.Explains setting g₀ busy) := by
  refine .graph_bind ?_
  split
  · next found hfound =>
    have hk : r.graph.kind? found = some .dynamicModule := by simpa using List.find?_some hfound
    refine .pure ⟨h, by simp [hk], ?_⟩
    rintro rfl
    rw [kind?_error ho h] at hk
    simp at hk
  · refine (yields_missing ho h rfl).weaken ?_
    exact fun _ _ hr' => ⟨hr'.1, hr'.2.1, fun _ => hr'.2.2⟩

/-- Aliases in the name of another one are resolved, or are being resolved. -/
abbrev AnswersNamed (setting : Setting) (g₀ : SymbolGraph) (busy : List SymbolId) (a : SymbolId)
    (resolve : SymbolId → ResolveM SymbolId) : Prop :=
  ∀ r : Resolution, r.Honest setting g₀ busy → ∀ c, setting.NamesAlias g₀ a c →
    r.Yields (resolve c) fun target r' => r'.Honest setting g₀ busy ∧
      r'.graph.kind? target ≠ some .alias ∧
        (target = WellKnown.error → r'.Explains setting g₀ busy ∨ c ∈ busy)

section Resolve

variable {resolve : SymbolId → ResolveM SymbolId}
  (hresolve : AnswersNamed setting g₀ (a :: busy) a resolve)

include hresolve

/-- An alias whose name leads back to itself does not ask for itself again. -/
theorem yields_settle (h : r.Honest setting g₀ (a :: busy)) {c : SymbolId}
    (hc : g₀.kind? c = some .alias) (hdecl : g₀.declarations c ≠ [])
    (hname : g₀.name c ∈ setting.aliasPath g₀ a) :
    r.Yields (settle resolve c) fun _ r' => r'.Honest setting g₀ (a :: busy) := by
  refine .graph_bind ?_
  split
  · next hr => exact (yields_settledTarget ho h hc hdecl hr).weaken fun _ _ hr' => hr'.1
  · next hr =>
    refine (hresolve r h c ⟨hc, hdecl, ?_, hname⟩).weaken fun _ _ hr' => hr'.1
    rintro rfl
    exact hr (h.marked c List.mem_cons_self)

theorem yields_namedTarget (h : r.Honest setting g₀ (a :: busy)) {site : DeclSite}
    {reference : NodeRef} (hpath : setting.aliasPath g₀ a = site.tree.entityName reference)
    (hroute : ∀ o ∈ busy, g₀.kind? o = some .alias → g₀.declarations o ≠ [] →
      Relation.TransGen (setting.NamesAlias g₀) o a) :
    r.Yields (namedTarget setting resolve a site reference) fun target r' =>
      r'.Honest setting g₀ (a :: busy) ∧ r'.graph.kind? target ≠ some .alias ∧
        (target = WellKnown.error →
          r'.Explains setting g₀ (a :: busy) ∨ setting.Knotted g₀ a) := by
  have hmissing : ∀ r : Resolution, r.Honest setting g₀ (a :: busy) → r.Yields (do
      report (.ofCode site.file (site.tree.span reference)
        (if (site.tree.entityName reference).length > 1 then Message.cannotFindNamespace
          else Message.cannotFindName) [Dotted.join (site.tree.entityName reference)])
      return WellKnown.error) fun target r' =>
        r'.Honest setting g₀ (a :: busy) ∧ r'.graph.kind? target ≠ some .alias ∧
          (target = WellKnown.error →
            r'.Explains setting g₀ (a :: busy) ∨ setting.Knotted g₀ a) := by
    refine fun r h => (yields_missing ho h ?_).weaken fun _ _ hr' =>
      ⟨hr'.1, hr'.2.1, fun _ => .inl hr'.2.2⟩
    split <;> rfl
  unfold namedTarget
  refine (yields_lookupPath (fun r h c hc hdecl hname => ?_) h _ _ _).bind fun found r' hr' => ?_
  · exact yields_settle ho hresolve h hc hdecl (hpath ▸ hname)
  obtain ⟨h', hfound⟩ := hr'
  cases found with
  | none => exact hmissing r' h'
  | some found =>
      obtain ⟨hdecl, hname⟩ := hfound found rfl
      dsimp only
      split
      · exact hmissing r' h'
      · next hne =>
        refine .graph_bind ?_
        rw [h'.tidy.kind?_eq hdecl]
        split
        · next hk =>
          have hnames : setting.NamesAlias g₀ a found :=
            ⟨beq_iff_eq.mp hk, hdecl, hne, hpath ▸ hname⟩
          refine (hresolve r' h' found hnames).weaken fun target r'' hr'' =>
            ⟨hr''.1, hr''.2.1, fun herror => (hr''.2.2 herror).imp_right fun hmem => ?_⟩
          have hback := hroute found ((List.mem_cons.mp hmem).resolve_left hne) hnames.kind hdecl
          exact Setting.knotted_of_transGen (.head hnames hback)
        · next hk =>
          refine .pure ⟨h', ?_, ?_⟩
          · rw [h'.tidy.kind?_eq hdecl]
            simpa using hk
          · rintro rfl
            exact absurd ho.undeclared hdecl

theorem yields_declaredTarget (h : r.Honest setting g₀ (a :: busy)) (ha : g₀.kind? a = some .alias)
    (hdecl : g₀.declarations a ≠ [])
    (hroute : ∀ o ∈ busy, g₀.kind? o = some .alias → g₀.declarations o ≠ [] →
      Relation.TransGen (setting.NamesAlias g₀) o a) :
    r.Yields (declaredTarget setting resolve a) fun target r' =>
      r'.Honest setting g₀ (a :: busy) ∧ r'.graph.kind? target ≠ some .alias ∧
        (target = WellKnown.error →
          r'.Explains setting g₀ (a :: busy) ∨ setting.Knotted g₀ a) := by
  unfold declaredTarget
  refine (yields_firstSite r setting a).bind fun site? r' hr' => ?_
  obtain ⟨hnone, hsite, rfl⟩ := hr'
  cases site? with
  | none => exact absurd (h.tidy.declarations_eq a ▸ hnone rfl) hdecl
  | some site =>
      have hfirst : setting.firstSite? g₀ a = some site := by
        rw [← hsite site rfl, Setting.firstSite?, Setting.firstSite?, h.tidy.declarations_eq]
      obtain ⟨i, hi⟩ := ho.imports ha hfirst
      dsimp only
      rw [hi]
      dsimp only
      split
      · exact (yields_requiredModule ho h site _).weaken fun _ _ hr' =>
          ⟨hr'.1, hr'.2.1, fun herror => .inl (hr'.2.2 herror)⟩
      · next hk =>
        refine yields_namedTarget ho hresolve h ?_ hroute
        simp only [Setting.aliasPath, hfirst, hi, if_neg hk]

end Resolve

omit ho in
/-- What an alias stands for is settled, and that is explained if it is the error symbol. -/
theorem yields_setTarget (h : r.Honest setting g₀ (a :: busy)) (ha : g₀.kind? a = some .alias)
    (hdecl : g₀.declarations a ≠ []) (hout : a ∉ busy) {target : SymbolId}
    (hk : r.graph.kind? target ≠ some .alias) (herror : target = WellKnown.error →
      r.Explains setting g₀ (a :: busy) ∨ setting.Knotted g₀ a) :
    r.Yields (do setSingle a target .typedAs; return target) fun target r' =>
      r'.Honest setting g₀ busy ∧ r'.graph.kind? target ≠ some .alias ∧
        (target = WellKnown.error → r'.Explains setting g₀ busy ∨ a ∈ busy) := by
  refine (h.yields_setSingle rfl rfl (fun _ => ⟨.alias, ha, rfl⟩) (fun _ _ => hk)
    fun _ => herror).bind
    fun _ r' hr' => ?_
  obtain ⟨h', hlabel, he, hmark⟩ := hr'
  refine .pure ⟨h', by rwa [kind?_congr hlabel], ?_⟩
  rintro rfl
  refine .inl (h'.explains hout ⟨?_, hmark, .typedAs, by simp, he⟩)
  rwa [h'.tidy.declarations_eq]

/-- By induction on the aliases that may still be followed. Those that are being resolved lead to the
alias that is asked for, so if that is one of them it is in a circle. -/
theorem yields_resolveAliasWithin {hops n : Nat} (h : r.Honest setting g₀ busy)
    (ha : g₀.kind? a = some .alias) (hdecl : g₀.declarations a ≠ [])
    (hn : n + hops = Limits.aliasDepth) (hbehind : setting.LiesBehind g₀ n a)
    (hroute : ∀ o ∈ busy, g₀.kind? o = some .alias → g₀.declarations o ≠ [] →
      Relation.TransGen (setting.NamesAlias g₀) o a) :
    r.Yields (resolveAliasWithin setting hops a) fun target r' => r'.Honest setting g₀ busy ∧
      r'.graph.kind? target ≠ some .alias ∧
        (target = WellKnown.error → r'.Explains setting g₀ busy ∨ a ∈ busy) := by
  induction hops generalizing r busy n a with
  | zero =>
      rw [resolveAliasWithin]
      refine h.yields_begin_else (fun r' h' hout => ?_) fun hr =>
        yields_settledTarget ho h ha hdecl hr
      obtain rfl : n = Limits.aliasDepth := hn
      exact yields_setTarget h' ha hdecl hout (kind?_error_ne_alias ho h') fun _ => .inr hbehind
  | succ hops ih =>
      rw [resolveAliasWithin]
      refine h.yields_begin_else (fun r' h' hout => ?_) fun hr =>
        yields_settledTarget ho h ha hdecl hr
      have hresolve : AnswersNamed setting g₀ (a :: busy) a (resolveAliasWithin setting hops) := by
        intro r h c hc
        refine ih h hc.kind hc.declared (n := n + 1) (by omega) (hbehind.next hc)
          fun o hmem hk hdecl => ?_
        rcases List.mem_cons.mp hmem with rfl | hmem
        · exact .single hc
        · exact (hroute o hmem hk hdecl).tail hc
      refine (yields_declaredTarget ho hresolve h' ha hdecl hroute).bind fun target r'' hr'' => ?_
      exact yields_setTarget hr''.1 ha hdecl hout hr''.2.1 hr''.2.2

/-! ### While no alias is being resolved -/

/-- The instance side of a class is the one it had before. -/
theorem kind?_of_instanceType? (h : r.Honest setting g₀ busy) {inst : SymbolId}
    (hinst : r.graph.instanceType? x = some inst) : g₀.kind? inst = some .instanceType :=
  (ho.sides (h.tidy.hasEdge_instanceType (hasEdge_of_instanceType? h.tidy.toMirrored hinst))).2

/-- No alias of the program text is being resolved. -/
def NoAlias (g : SymbolGraph) (busy : List SymbolId) : Prop :=
  ∀ x ∈ busy, g.declarations x ≠ [] → g.kind? x ≠ some .alias

section Clear

variable (hclear : NoAlias g₀ busy)

include hclear

theorem yields_resolveAlias (h : r.Honest setting g₀ busy) (ha : g₀.kind? a = some .alias)
    (hdecl : g₀.declarations a ≠ []) :
    r.Yields (resolveAlias setting a) fun target r' => r'.Honest setting g₀ busy ∧
      r'.graph.kind? target ≠ some .alias ∧
        (target = WellKnown.error → r'.Explains setting g₀ busy) := by
  refine (yields_resolveAliasWithin ho h ha hdecl (Nat.zero_add _) (.start a) fun o hmem hk hd =>
    absurd hk (hclear o hmem hd)).weaken fun target r' hr' => ⟨hr'.1, hr'.2.1, fun herror => ?_⟩
  exact (hr'.2.2 herror).resolve_right fun hmem => hclear a hmem hdecl ha

theorem yields_aliasTarget (h : r.Honest setting g₀ busy) (ha : g₀.kind? a = some .alias)
    (hdecl : g₀.declarations a ≠ []) :
    r.Yields (aliasTarget setting a) fun target r' => r'.Honest setting g₀ busy ∧
      r'.graph.kind? target ≠ some .alias ∧
        (target = WellKnown.error → r'.Explains setting g₀ busy) := by
  refine .graph_bind ?_
  split
  · next hr =>
    refine (yields_settledTarget ho h ha hdecl hr).weaken fun target r' hr' =>
      ⟨hr'.1, hr'.2.1, fun herror => ?_⟩
    exact (hr'.2.2 herror).resolve_right fun hmem => hclear a hmem hdecl ha
  · exact yields_resolveAlias ho hclear h ha hdecl

theorem yields_findPath (h : r.Honest setting g₀ busy) (segments : List String)
    (context : List SymbolId) (enclosing : Option DeclId) (meaning : Meaning) :
    r.Yields (findPath setting segments context enclosing meaning) fun found r' =>
      r'.Honest setting g₀ busy ∧ Finds g₀ segments found :=
  yields_lookupPath (fun _ h _ hc hdecl _ =>
    (yields_aliasTarget ho hclear h hc hdecl).weaken fun _ _ hr' => hr'.1) h context enclosing meaning

omit hclear in
theorem yields_typeDenoted (h : r.Honest setting g₀ busy) (hk : r.graph.kind? x ≠ some .alias)
    (herror : x = WellKnown.error → r.Explains setting g₀ busy) :
    r.Yields (typeDenoted x) fun type r' => r'.Honest setting g₀ busy ∧
      (type = WellKnown.error → r'.Explains setting g₀ busy) := by
  unfold typeDenoted
  refine .graph_bind ?_
  split
  · next halias => exact absurd halias hk
  · split
    · next inst hinst =>
      have hkind := kind?_of_instanceType? ho h hinst
      exact .pure ⟨h, fun herror => absurd herror (ho.ne_error hkind (by simp))⟩
    · exact .throw _
  · exact .pure ⟨h, herror⟩
  · exact .throw _

/-- What a name denotes is the error symbol only if that is explained. -/
theorem yields_asType (h : r.Honest setting g₀ busy) (hdecl : g₀.declarations x ≠ []) :
    r.Yields (asType setting x) fun type r' => r'.Honest setting g₀ busy ∧
      (type = WellKnown.error → r'.Explains setting g₀ busy) := by
  rw [asType_eq]
  refine .graph_bind ?_
  rw [h.tidy.kind?_eq hdecl]
  split
  · next hk =>
    refine (yields_aliasTarget ho hclear h (beq_iff_eq.mp hk) hdecl).bind fun target r' hr' => ?_
    exact yields_typeDenoted ho hr'.1 hr'.2.1 hr'.2.2
  · next hk =>
    refine yields_typeDenoted ho h ?_ ?_
    · rw [h.tidy.kind?_eq hdecl]
      simpa using hk
    · rintro rfl
      exact absurd ho.undeclared hdecl

end Clear

end ResolveM

end NameBinding
