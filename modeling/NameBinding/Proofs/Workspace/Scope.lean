import NameBinding.Proofs.Resolve.Rest
import NameBinding.Proofs.Resolve.Scopes
import NameBinding.Proofs.Workspace.Collapse
import NameBinding.Proofs.Workspace.Duality

/-! # Names are searched from the inside out

Main statement: a name of one segment is answered with the first symbol in scope that fits it, and a
longer one with where the first candidate leads from which the other segments lead on. The entries
among the bases of a type are searched from outside the type, so that a name of one segment never
leads to something inside the type. -/

namespace NameBinding

open SymbolGraph ResolveM

/-! ### How deep places lie -/

namespace Place

/-- The number of symbols around a place, with the one at the place. -/
def depth : Place → Nat
  | top => 0
  | shared owner _ _ => owner.depth + 1
  | single owner _ => owner.depth + 1

end Place

namespace Decl

variable {d : Decl} {file : String} {scope q : Place}

/-- Classes are not shared. -/
theorem depth_le_ownerAt (d : Decl)
    (h : scope.kind? = some .classType → ∃ owner spot, scope = .single owner spot) :
    scope.depth ≤ (d.ownerAt scope).depth := by
  have hinstances : ∀ q ∈ scope.instances?, scope.depth ≤ q.depth := by
    intro q hq
    unfold Place.instances? at hq
    split at hq
    · next hk =>
      obtain ⟨owner, spot, rfl⟩ := h (by simpa using hk)
      obtain rfl := Option.some.inj hq
      simp [Place.instanceSide, Place.depth]
    · exact absurd hq (by simp)
  unfold ownerAt
  split
  · cases hi : scope.instances? with
    | none => exact Nat.le_refl _
    | some q => exact hinstances q hi
  · exact Nat.le_refl _

/-- The symbol of a declaration lies deeper than what is around the declaration. -/
theorem depth_lt_symbolAt (hq : d.symbolAt? file scope = some q)
    (h : scope.kind? = some .classType → ∃ owner spot, scope = .single owner spot) :
    scope.depth < q.depth := by
  have hmerged : ∀ owner kind, (d.mergedAt file owner kind).depth = owner.depth + 1 := by
    intro owner kind
    unfold mergedAt
    split <;> rfl
  have hle := depth_le_ownerAt d h
  unfold symbolAt? at hq
  cases hk : d.kind <;> simp only [hk, reduceCtorEq, Option.some.injEq] at hq
  case function | method | staticMethod =>
    subst hq
    split
    · simp [signatureAt, Place.depth]
    · rw [hmerged]
      omega
  case field | staticField =>
    subst hq
    split
    · rw [hmerged]
      omega
    · simp [singleAt, Place.depth]
      omega
  case constructSignature => simp [← hq, signatureAt, Place.depth]
  all_goals
    simp [← hq, hmerged, singleAt, signatureAt, Place.depth]
    omega

end Decl

/-- The request only looks names up, for which it resolves aliases. -/
def Request.looksUp : Request → Bool
  | .demand (.path ..) | .demand (.alias _) | .demand (.aliasTarget _) => true
  | _ => false

namespace Workspace

variable {c : Chart} {w : Workspace} {u : CompilationUnit} {d e : Decl} {type x s : SymbolId}
  {p q : Place}

/-- The symbol of a declaration lies deeper than the scope of the declaration. -/
theorem Surveyed.depth_lt_symbolAt (h : Surveyed c w) (hs : w.Sound) (hu : u ∈ w.program.units)
    (hd : u.decl? d.id = some d) (hp : u.scopeAt d = .scope p)
    (hq : d.symbolAt? u.path p = some q) : p.depth < q.depth := by
  refine Decl.depth_lt_symbolAt hq fun hk => ?_
  obtain ⟨scope, -, hholds⟩ := h.exists_inScope hs hu hd hp
  cases scope with
  | none =>
      obtain rfl : p = .top := hholds
      exact absurd hk (by simp [Place.kind?])
  | some y => exact (h.charted.proper hholds).single_of_classType hk

/-- What is declared inside a declaration is inside its symbol, or in the same scope if it has none. -/
theorem Surveyed.scopeAt_of_inside (h : Surveyed c w) (hs : w.Sound) (hu : u ∈ w.program.units)
    (he : u.decl? e.id = some e) (hinside : (u.outcomeAt e).2 = .scope q) :
    (u.scopeAt e = .scope q ∧ e.symbol = none) ∨ ∃ p s, u.scopeAt e = .scope p ∧
      p.depth < q.depth ∧ e.symbol = some s ∧ c.place s = some q := by
  have hprogram := h.charted.program.decl?_eq_some_iff.mpr ⟨u, hu, he⟩
  cases hat : u.scopeAt e with
  | closed =>
      rw [CompilationUnit.outcomeAt, CompilationUnit.outcomeOf, ← CompilationUnit.scopeAt, hat]
        at hinside
      exact absurd hinside (by simp)
  | scope p =>
      have hout := CompilationUnit.outcomeAt_eq hat
      rw [hout] at hinside
      rcases Decl.symbolAt_of_inside hinside with ⟨hk, rfl⟩ | ⟨hsymbol, hmem⟩
      · exact .inl ⟨rfl, h.symbol_script hprogram hk⟩
      · have hplaces : (e.id.index, q) ∈ u.places :=
          (CompilationUnit.mem_places_iff (h.charted.program.numbered u hu)).mpr
            ⟨e, he, hout ▸ hmem⟩
        have hlisted : c.contributes e.id q := h.contributes.mpr
          ⟨u, hu, (CompilationUnit.decl?_eq_some he).1.symm, hplaces⟩
        obtain ⟨s, hsome, hplace⟩ := h.exists_symbol hs hu he hat hsymbol hlisted
        exact .inr ⟨p, s, rfl, h.depth_lt_symbolAt hs hu he hat hsymbol, hsome, hplace⟩

/-- What is declared around a declaration lies no deeper than the scope of the declaration. By
induction on the steps outwards. -/
theorem Surveyed.depth_outward_le (h : Surveyed c w) (hs : w.Sound) (hu : u ∈ w.program.units)
    (hd : u.decl? d.id = some d) (hq : u.scopeAt d = .scope q) {steps : Nat}
    (he : w.program.outward? steps d.parent = some e) (hsymbol : e.symbol = some s)
    (hp : c.place s = some p) : p.depth ≤ q.depth := by
  induction steps generalizing d q with
  | zero =>
      rcases CompilationUnit.scopeAt_cases (h.charted.program.numbered u hu)
        (h.collected u hu).nested hd hq with ⟨hparent, -⟩ | ⟨e', hparent, he', -, hinside⟩
      · simp [hparent, Program.outward?] at he
      · have hprogram := h.charted.program.decl?_eq_some_iff.mpr ⟨u, hu, he'⟩
        obtain rfl : e' = e := by simpa [hparent, Program.outward?, hprogram] using he
        rcases h.scopeAt_of_inside hs hu he' hinside with ⟨-, hnone⟩ | ⟨_, z, -, -, hz, hzq⟩
        · exact absurd (hsymbol.symm.trans hnone) (by simp)
        · obtain rfl := Option.some.inj (hsymbol.symm.trans hz)
          obtain rfl := Option.some.inj (hp.symm.trans hzq)
          exact Nat.le_refl _
  | succ steps ih =>
      rcases CompilationUnit.scopeAt_cases (h.charted.program.numbered u hu)
        (h.collected u hu).nested hd hq with ⟨hparent, -⟩ | ⟨e', hparent, he', -, hinside⟩
      · simp [hparent, Program.outward?] at he
      · have hprogram := h.charted.program.decl?_eq_some_iff.mpr ⟨u, hu, he'⟩
        have hrest : w.program.outward? steps e'.parent = some e := by
          simpa [hparent, Program.outward?, hprogram] using he
        rcases h.scopeAt_of_inside hs hu he' hinside with ⟨hat, -⟩ | ⟨p', _, hat, hlt, -⟩
        · exact ih he' hat hrest
        · exact Nat.le_trans (ih he' hat hrest) (Nat.le_of_lt hlt)

/-- The symbol of what is declared around a declaration is no instance side. -/
theorem Surveyed.place_of_outward (h : Surveyed c w) {steps : Nat} {enclosing : Option DeclId}
    (he : w.program.outward? steps enclosing = some e) (hsymbol : e.symbol = some s) :
    ∃ p, c.place s = some p ∧ p.kind? ≠ some .instanceType := by
  obtain ⟨id, hid⟩ := Program.exists_decl?_of_outward? he
  obtain ⟨p, y, hp, hy, hkind⟩ := h.named (d := id) (x := s) (by
    rw [Program.symbol?, hid, Option.bind_some, hsymbol])
  refine ⟨p, hp, fun hside => ?_⟩
  rw [hkind] at hside
  unfold Decl.symbolKind? Decl.functionKind at hside
  grind

/-- A declaration of a class or an interface stands in a scope that lies less deep than the type. -/
theorem Surveyed.exists_scope_of_type (h : Surveyed c w) (hs : w.Sound) {d : DeclId}
    {site : DeclSite} (hq : c.place type = some q)
    (hk : q.kind? = some .classType ∨ q.kind? = some .interface)
    (hd : d ∈ w.graph.declarations type) (hsite : w.setting.site? d = some site) :
    ∃ u ∈ w.program.units, u.decl? site.decl.id = some site.decl ∧
      ∃ p, u.scopeAt site.decl = .scope p ∧ p.depth < q.depth := by
  obtain ⟨u, hu, hfound⟩ := Option.bind_eq_some_iff.mp hsite
  obtain ⟨decl, hdecl, rfl⟩ := Option.map_eq_some_iff.mp hfound
  obtain ⟨v, hv, hid, hplace⟩ := h.contributes.mp ((h.charted.declarations hq d).mp hd)
  have hunit : u ∈ w.program.units := List.mem_of_find?_eq_some hu
  have hsame : u.id = d.unit := by simpa using List.find?_some hu
  obtain rfl := h.charted.program.eq_of_id hv hunit (hid.trans hsame.symm)
  have hn := h.charted.program.numbered v hunit
  obtain rfl := hn.id_eq hdecl
  obtain ⟨e, he, hmem⟩ := (CompilationUnit.mem_places_iff hn).mp hplace
  obtain ⟨p, hp⟩ := CompilationUnit.exists_scopeAt (List.ne_nil_of_mem hmem)
  rw [CompilationUnit.outcomeAt_eq hp] at hmem
  rcases Decl.symbolAt_of_mem_outcome hmem with
    ⟨hi, hat | ⟨kind, hsecond, hkind⟩⟩ | ⟨_, _, _, hkind⟩
  · obtain rfl := CompilationUnit.decl_eq_of_index hdecl he hi
    exact ⟨v, hv, hdecl, p, hp, h.depth_lt_symbolAt hs hv hdecl hp hat⟩
  · unfold Decl.secondKind? at hsecond
    grind
  · rcases hk with hk | hk <;> simp [hk] at hkind

/-! ### What is inside a type -/

/-- What can be named inside a symbol stands below the symbol or below its instance side. -/
theorem Surveyed.owner_of_mem_scopeChildren (h : Surveyed c w) (hs : w.Sound)
    (hq : c.place x = some q) (hx : x ∈ w.graph.scopeChildren s) : c.place s = some q.owner ∨
      ∃ inst, w.graph.hasEdge ⟨s, inst, .instanceType⟩ ∧ c.place inst = some q.owner := by
  rcases List.mem_append.mp hx with hx | hx
  · exact .inl (h.place_of_mem_children hq hx).1
  · cases hinst : w.graph.instanceType? s with
    | none => simp [hinst] at hx
    | some inst =>
        rw [hinst] at hx
        exact .inr ⟨inst, hasEdge_of_instanceType? hs.graph.toMirrored hinst,
          (h.place_of_mem_children hq hx).1⟩

/-- Inside two symbols there is nothing in common. -/
theorem Reachable.eq_of_mem_scopeChildren (hw : w.Reachable) (hx : x ∈ w.graph.scopeChildren s)
    (hx' : x ∈ w.graph.scopeChildren type) (hdecl : w.graph.declarations x ≠ [])
    (hs : w.graph.kind? s ≠ some .instanceType) (ht : w.graph.kind? type ≠ some .instanceType) :
    s = type := by
  obtain ⟨c, h⟩ := hw.exists_surveyed
  obtain ⟨q, hq⟩ := h.exists_place hdecl
  have hside : ∀ {cls inst}, w.graph.hasEdge ⟨cls, inst, .instanceType⟩ →
      w.graph.kind? inst = some .instanceType := fun he => (hw.sound.graph.isSide he).2.1
  rcases h.owner_of_mem_scopeChildren hw.sound hq hx with hsp | ⟨inst, he, hsp⟩
  · rcases h.owner_of_mem_scopeChildren hw.sound hq hx' with htp | ⟨inst', he', htp⟩
    · exact h.charted.injective hsp htp
    · exact absurd (hside he') (h.charted.injective hsp htp ▸ hs)
  · rcases h.owner_of_mem_scopeChildren hw.sound hq hx' with htp | ⟨inst', he', htp⟩
    · exact absurd (hside he) (h.charted.injective htp hsp ▸ ht)
    · obtain rfl := h.charted.injective hsp htp
      exact hw.oneSource_instanceType _ _ _ he he'

/-- Nothing inside a type is in scope where the type is declared. -/
theorem Reachable.not_mem_inScope (hw : w.Reachable) {d : DeclId} {site : DeclSite}
    {name : String} (hk : w.graph.kind? type = some .classType ∨ w.graph.kind? type = some .interface)
    (hd : d ∈ w.graph.declarations type) (hsite : w.setting.site? d = some site)
    (hx : x ∈ w.graph.scopeChildren type) (hdecl : w.graph.declarations x ≠ []) :
    x ∉ w.setting.inScope w.graph [] site.decl.parent name := by
  obtain ⟨c, h⟩ := hw.exists_surveyed
  obtain ⟨q, hq⟩ := h.exists_place hdecl
  obtain ⟨p, hp⟩ := h.exists_place (List.ne_nil_of_mem hd)
  rw [Setting.mem_inScope_iff]
  rintro (⟨s, hmem, hxs⟩ | hglobal)
  · obtain ⟨steps, -, e, he, hsymbol⟩ := Setting.mem_surrounding_nil_iff.mp hmem
    obtain ⟨r, hr, hkind⟩ := h.place_of_outward he hsymbol
    have hside : w.graph.kind? s ≠ some .instanceType := by
      rw [h.charted.kind? hr]
      exact hkind
    have hnoside : w.graph.kind? type ≠ some .instanceType := by
      rcases hk with hk | hk <;> simp [hk]
    obtain rfl := hw.eq_of_mem_scopeChildren hxs hx hdecl hside hnoside
    obtain rfl := Option.some.inj (hp.symm.trans hr)
    rw [h.charted.kind? hp] at hk
    obtain ⟨u, hu, hd, o, ho, hlt⟩ := h.exists_scope_of_type hw.sound hp hk hd hsite
    have hle := h.depth_outward_le hw.sound hu hd ho he hsymbol hp
    omega
  · obtain ⟨u, hu, hlisted⟩ := List.mem_flatMap.mp (List.mem_eraseDups.mp hglobal)
    have htop := ((h.charted.listed hu hlisted).2 q hq).1
    rcases h.owner_of_mem_scopeChildren hw.sound hq hx with hplace | ⟨inst, -, hplace⟩
    · exact h.charted.ne_top hplace htop
    · exact h.charted.ne_top hplace htop

/-! ### Requests that only look names up -/

theorem Reachable.advances_demand (h : w.Reachable) {d : Demand}
    (hd : (Request.demand d).looksUp) :
    w.graph.Advances w.setting ((Request.demand d).apply w).graph ∧
      ((Request.demand d).apply w).setting = w.setting := by
  have hdone : ∀ {d : Demand}, Resolution.Returns ⟨w.graph, w.diagnostics⟩ (d.run w.setting)
        (fun _ r => w.graph.Advances w.setting r.graph) →
      w.graph.Advances w.setting ((Request.demand d).apply w).graph ∧
        ((Request.demand d).apply w).setting = w.setting := by
    intro d hreturns
    obtain ⟨_, r, hr, hrun⟩ := exists_run_of_returns hreturns
    rw [apply_of_run hrun]
    exact ⟨hr, rfl⟩
  have hunknown : ∀ {d : Demand} {e : BindError}, d.failure? w.setting w.graph = some (e, w.graph) →
      w.graph.Advances w.setting ((Request.demand d).apply w).graph ∧
        ((Request.demand d).apply w).setting = w.setting := by
    intro d e hf
    rw [(h.error?_of_failure hf).2]
    exact ⟨.refl h.searchable, rfl⟩
  cases d with
  | path segments context enclosing meaning =>
      refine hdone ((finds_findPath h.searchable segments context enclosing meaning).weaken ?_)
      exact fun _ _ hr => hr.1.advances
  | «alias» x =>
      by_cases hx : x < w.graph.size
      · exact hdone ((returns_resolveAlias h.searchable hx).bind fun _ _ ht => .pure ht.advances)
      · exact hunknown (if_neg hx)
  | aliasTarget x =>
      by_cases hx : x < w.graph.size
      · exact hdone ((returns_aliasTarget h.searchable hx).bind fun _ _ ht => .pure ht.advances)
      · exact hunknown (if_neg hx)
  | _ => exact absurd hd (by simp [Request.looksUp])

/-- By induction on the requests. -/
theorem Reachable.advances_after (h : w.Reachable) {later : List Request}
    (hl : later.all Request.looksUp) :
    w.graph.Advances w.setting (w.after later).graph := by
  induction later generalizing w with
  | nil => exact .refl h.searchable
  | cons request later ih =>
      rw [List.all_cons, Bool.and_eq_true] at hl
      cases request with
      | demand d =>
          obtain ⟨hfirst, hsetting⟩ := h.advances_demand hl.1
          have hrest := ih (h.apply (.demand d)) hl.2
          rw [hsetting] at hrest
          exact hfirst.trans hrest
      | _ => exact absurd hl.1 (by simp [Request.looksUp])

/-! ### Entries among the bases -/

/-- A state to which resolving leads from the workspace, and in which names can be looked up. -/
structure Midway (w : Workspace) (r : Resolution) : Prop where
  resolves : w.graph.Resolves w.setting r.graph
  searchable : Searchable w.setting r.graph

/-- What surrounds a declaration was there before resolving began, and so is what is in scope. -/
theorem Reachable.inScope_of_resolves (hw : w.Reachable) {g : SymbolGraph}
    (hg : w.graph.Resolves w.setting g) (enclosing : Option DeclId) (name : String) :
    w.setting.inScope g [] enclosing name = w.setting.inScope w.graph [] enclosing name := by
  obtain ⟨c, h⟩ := hw.exists_surveyed
  refine congrArg (· ++ _) (List.flatMap_congr fun s hs => ?_)
  obtain ⟨_, -, _, he, hsymbol⟩ := Setting.mem_surrounding_nil_iff.mp hs
  obtain ⟨p, hp, -⟩ := h.place_of_outward he hsymbol
  exact hg.scopeChildren_eq hw.sound.graph.toWellFormed (h.charted.lt_size hp)

/-- An entry is searched as a type first, and then as anything. -/
theorem Midway.exists_heritageTarget {r : Resolution} (h : w.Midway r) (site : DeclSite)
    (notObject : Nat) (entry : NodeRef) : ∃ found r',
      heritageTarget w.setting site notObject entry r =
        baseFound w.setting site notObject entry found r' ∧
      r.graph.Advances w.setting r'.graph ∧
      found = (w.setting.denoted? r'.graph (entryName site entry) [] site.decl.parent .type).or
        (w.setting.denoted? r'.graph (entryName site entry) [] site.decl.parent .any) ∧
      ∀ x ∈ found, r.graph.declarations x ≠ [] := by
  rw [heritageTarget_eq]
  obtain ⟨found, r', hr, hsearch, hanswer, hdecl⟩ :=
    finds_findPath h.searchable (entryName site entry) [] site.decl.parent .type
  have hr' := hsearch.advances.toSearchable
  rw [run_bind_of_ok hr]
  cases found with
  | some found =>
      refine ⟨some found, r', rfl, hsearch.advances, ?_, hdecl⟩
      have hfound : some found =
          w.setting.denoted? r'.graph (entryName site entry) [] site.decl.parent .type :=
        hanswer _ (.refl hr')
      rw [← hfound, Option.some_or]
  | none =>
      obtain ⟨found, r'', hr'', hsearch', hanswer', hdecl'⟩ :=
        finds_findPath hr' (entryName site entry) [] site.decl.parent .any
      refine ⟨found, r'', run_bind_of_ok hr'', hsearch.advances.trans hsearch'.advances, ?_, ?_⟩
      · have hfound : none =
            w.setting.denoted? r''.graph (entryName site entry) [] site.decl.parent .type :=
          hanswer _ hsearch'.advances
        rw [← hfound, Option.none_or]
        exact hanswer' _ (.refl hsearch'.advances.toSearchable)
      · intro x hx
        rw [← hsearch.advances.declarations_eq]
        exact hdecl' x hx

/-! ### Main statement -/

/-- Names are searched from the inside out. -/
structure SearchesInOrder (w : Workspace) : Prop where
  /-- The first symbol in scope that fits is found, and nothing changes. -/
  single : ∀ name context enclosing meaning,
    (Request.demand (.path [name] context enclosing meaning)).run w =
      .ok (.symbol ((w.setting.inScope w.graph context enclosing name).find?
        (w.graph.admits name meaning))) w
  /-- The answer for a longer name stays the same when more aliases are resolved. -/
  dotted : ∀ first rest context enclosing meaning, ∃ found w',
    (Request.demand (.path (first :: rest) context enclosing meaning)).run w =
        .ok (.symbol found) w' ∧
      ∀ later : List Request, later.all Request.looksUp →
        found = (w.setting.candidates w.graph context enclosing meaning first rest).findSome?
          ((w'.after later).graph.walk? meaning · rest)
  /-- The place of an entry is outside the type, in every state while names are resolved. -/
  bases : ∀ r, w.Midway r → ∀ site notObject entry, ∃ found r',
    heritageTarget w.setting site notObject entry r =
        baseFound w.setting site notObject entry found r' ∧
      r.graph.Advances w.setting r'.graph ∧
      (∀ first rest, entryName site entry = first :: rest →
        found = ((w.setting.candidates r.graph [] site.decl.parent .type first rest).findSome?
            (r'.graph.walk? .type · rest)).or
          ((w.setting.candidates r.graph [] site.decl.parent .any first rest).findSome?
            (r'.graph.walk? .any · rest))) ∧
      ∀ type d, (w.graph.kind? type = some .classType ∨ w.graph.kind? type = some .interface) →
        d ∈ w.graph.declarations type → w.setting.site? d = some site →
          ∀ name, entryName site entry = [name] → ∀ x ∈ found, x ∉ r.graph.scopeChildren type

/-- Whatever was requested, a name is searched in the context, in the scopes of the declarations
around the place from the inside out, and among the global names. -/
theorem Reachable.searchesInOrder (h : w.Reachable) : w.SearchesInOrder := by
  constructor
  · intro name context enclosing meaning
    have hdemand : (Demand.path [name] context enclosing meaning).run w.setting
        ⟨w.graph, w.diagnostics⟩ = .ok ((w.setting.inScope w.graph context enclosing name).find?
          (w.graph.admits name meaning)) ⟨w.graph, w.diagnostics⟩ := by
      rw [← Setting.denoted?_single]
      exact run_findPath_single w.setting ⟨w.graph, w.diagnostics⟩ name context enclosing meaning
    rw [run_demand, hdemand]
  · intro first rest context enclosing meaning
    obtain ⟨found, r, ⟨hsearch, hanswer, -⟩, hrun⟩ := exists_run_of_returns
      (d := .path (first :: rest) context enclosing meaning)
      (finds_findPath h.searchable (first :: rest) context enclosing meaning)
    refine ⟨found, _, hrun, fun later hl => ?_⟩
    have hreach := h.apply (.demand (.path (first :: rest) context enclosing meaning))
    rw [apply_of_run hrun] at hreach
    have hafter := hreach.advances_after hl
    have hwell := h.sound.graph.toWellFormed
    rw [← Setting.candidates_eq (hsearch.advances.trans hafter) hwell, ← Setting.denoted?_cons]
    exact hanswer _ hafter
  · intro r hr site notObject entry
    obtain ⟨found, r', heq, hadv, hfound, hdecl⟩ := hr.exists_heritageTarget site notObject entry
    refine ⟨found, r', heq, hadv, fun first rest hname => ?_, fun type d hk hd hsite name hname => ?_⟩
    · rw [hfound, hname, Setting.denoted?_cons, Setting.denoted?_cons,
        Setting.candidates_eq hadv hr.searchable.toWellFormed,
        Setting.candidates_eq hadv hr.searchable.toWellFormed]
    · intro x hx hinside
      have hdeclared : w.graph.declarations x ≠ [] := by
        rw [← hr.resolves.declarations]
        exact hdecl x hx
      rw [hr.resolves.scopeChildren_eq h.sound.graph.toWellFormed
        (Stands.of_declared (List.ne_nil_of_mem hd)).1] at hinside
      have hout : x ∉ w.setting.inScope w.graph [] site.decl.parent name :=
        h.not_mem_inScope hk hd hsite hinside hdeclared
      refine hout ?_
      rw [← h.inScope_of_resolves (hr.resolves.trans hadv.resolves)]
      rw [hname, Setting.denoted?_single, Setting.denoted?_single] at hfound
      rw [hfound] at hx
      rcases Option.or_eq_some_iff.mp hx with hx | ⟨-, hx⟩
      · exact List.mem_of_find?_eq_some hx
      · exact List.mem_of_find?_eq_some hx

/-- A class whose base has the name of one of its fields, of a variable beside the class and of a
global one. -/
def shadowedBase : Workspace := (ofOptions {}).after
  [.setStatements "one.ts" do
      let beside ← Build.singleVariable "x" ∅ none none
      let field ← Build.property "x" ∅ none
      let c ← Build.classDecl "C" ∅ [← Build.typeReference "x"] [] [field]
      return [← Build.moduleDecl "M" ∅ [beside, c]],
    .setStatements "two.ts" do return [← Build.singleVariable "x" ∅ none none]]

/-- The field comes first inside the class, and is not in scope where its base is searched. -/
theorem searchesInOrder_shadowedBase : shadowedBase.Reachable ∧
    shadowedBase.graph.scopeChildren 10 = [12] ∧
    shadowedBase.setting.inScope shadowedBase.graph [] (some ⟨0, 3⟩) "x" = [12, 9, 10, 13] ∧
    shadowedBase.setting.inScope shadowedBase.graph [] (some ⟨0, 1⟩) "x" = [9, 10, 13] ∧
    shadowedBase.SearchesInOrder := by
  have hreach : shadowedBase.Reachable := ⟨_, _, rfl⟩
  exact ⟨hreach, by decide +kernel, by decide +kernel, by decide +kernel, hreach.searchesInOrder⟩

end Workspace

end NameBinding
