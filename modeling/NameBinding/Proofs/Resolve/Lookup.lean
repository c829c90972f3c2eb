import NameBinding.Proofs.Resolve.Bound
import NameBinding.Proofs.Resolve.Failure
import NameBinding.Proofs.Resolve.Firm

/-! # What looking names up finds

A lookup never fails. What it finds can be read of the graph that it leaves behind, and of every later
one, as if the aliases on the way had been resolved all along. -/

namespace NameBinding

open SymbolGraph

/-! ### Steps that succeed -/

/-- The step succeeds from the state, and its answer and what it leaves behind are as stated. -/
def Resolution.Returns {α : Type} (r : Resolution) (m : ResolveM α)
    (post : α → Resolution → Prop) : Prop :=
  ∃ a r', m r = .ok a r' ∧ post a r'

namespace Resolution.Returns

variable {α β : Type} {r : Resolution} {m : ResolveM α} {post post' : α → Resolution → Prop}

protected theorem weaken (h : r.Returns m post) (hpost : ∀ a r', post a r' → post' a r') :
    r.Returns m post' := by
  obtain ⟨a, r', hr, ha⟩ := h
  exact ⟨a, r', hr, hpost a r' ha⟩

protected theorem pure {a : α} (h : post a r) : r.Returns (pure a) post := ⟨a, r, rfl, h⟩

protected theorem bind {f : α → ResolveM β} {post : β → Resolution → Prop}
    (h : r.Returns m post') (hf : ∀ a r', post' a r' → r'.Returns (f a) post) :
    r.Returns (m >>= f) post := by
  obtain ⟨a, r', hr, ha⟩ := h
  obtain ⟨b, r'', hr', hb⟩ := hf a r' ha
  exact ⟨b, r'', (run_bind_of_ok hr).trans hr', hb⟩

/-- A first step whose answer is known. -/
protected theorem bind_ok {f : α → ResolveM β} {post : β → Resolution → Prop} {a : α}
    {r' : Resolution} (hr : m r = .ok a r') (h : r'.Returns (f a) post) :
    r.Returns (m >>= f) post := by
  obtain ⟨b, r'', hr', hb⟩ := h
  exact ⟨b, r'', (run_bind_of_ok hr).trans hr', hb⟩

protected theorem graph_bind {f : SymbolGraph → ResolveM α} (h : r.Returns (f r.graph) post) :
    r.Returns (ResolveM.graph >>= f) post := h

end Resolution.Returns

namespace ResolveM

variable {r : Resolution} {α : Type} {x t : SymbolId} {kind : EdgeKind}

theorem returns_report (r : Resolution) (d : Diagnostic) :
    r.Returns (report d) fun _ r' => r'.graph = r.graph := by
  refine ⟨⟨⟩, _, rfl, ?_⟩
  dsimp only
  split <;> rfl

theorem returns_setSingle (hx : x < r.graph.size) (ht : t < r.graph.size) (kind : EdgeKind) :
    r.Returns (setSingle x t kind) fun _ r' => r'.graph = r.graph.pointOnly x t kind := by
  refine ⟨⟨⟩, { r with graph := r.graph.pointOnly x t kind }, ?_, rfl⟩
  unfold setSingle onGraph
  rw [GraphM.setSingle_eq_ok hx ht]
  rfl

theorem run_begin_of_old (hr : r.graph.isResolved x) : begin x r = .ok false r := by
  obtain ⟨s, hs⟩ := Option.isSome_iff_exists.mp
    ((isSome_get? r.graph x).trans (decide_eq_true (lt_size_of_isResolved hr)))
  have hmarked : s.resolved := by simpa [isResolved, hs] using hr
  simp only [begin, graph, bind_assoc, run_get_bind, pure_bind, hs, if_pos hmarked]
  rfl

/-- Work that is done once for a symbol, and another answer if it was done. -/
theorem returns_begin_else {work rest : ResolveM α} {post : α → Resolution → Prop}
    (hx : x < r.graph.size)
    (hwork : ¬r.graph.isResolved x →
      Resolution.Returns { r with graph := r.graph.setResolved x true } work post)
    (hrest : r.graph.isResolved x → r.Returns rest post) :
    r.Returns (do if ← begin x then work else rest) post := by
  by_cases hr : r.graph.isResolved x
  · exact .bind_ok (run_begin_of_old hr) (hrest hr)
  · exact .bind_ok (run_begin_of_new hx hr r.diagnostics) (hwork hr)

/-- The place where a symbol is declared first. -/
theorem returns_firstSite {setting : Setting} (h : Searchable setting r.graph)
    (hx : x < r.graph.size) : r.Returns (firstSite setting x) fun _ r' => r' = r := by
  obtain ⟨s, hs⟩ := Option.isSome_iff_exists.mp
    ((isSome_get? r.graph x).trans (decide_eq_true hx))
  have hdecls : declarations x r = .ok (r.graph.declarations x) r := by
    simp only [declarations, graph, bind_assoc, run_get_bind, pure_bind, hs,
      SymbolGraph.declarations, Option.map_some, Option.getD_some]
    rfl
  refine .bind_ok hdecls ?_
  cases hd : (r.graph.declarations x).head? with
  | none => exact .pure rfl
  | some d =>
      obtain ⟨site, hsite⟩ := h.known (List.mem_of_head? hd)
      obtain ⟨u, hu, hfound⟩ := Option.bind_eq_some_iff.mp hsite
      obtain ⟨decl, hdecl, -⟩ := Option.map_eq_some_iff.mp hfound
      have hrun : ResolveM.site setting d r = .ok ⟨decl, u.tree, u.path⟩ r := by
        simp only [ResolveM.site, hu, hdecl]
        rfl
      exact .bind_ok hrun (.pure rfl)

end ResolveM

/-! ### What is found in a graph -/

namespace SymbolGraph

/-- The symbol that has the members: what an alias stands for, or the symbol itself. -/
def holder (g : SymbolGraph) (x : SymbolId) : SymbolId :=
  if g.kind? x = some .alias then g.standsFor x else x

/-- Follows segments from a symbol. Each segment takes the first public member with its name and an
admitted kind. -/
def walk? (g : SymbolGraph) (meaning : Meaning) : SymbolId → List String → Option SymbolId
  | current, [] => some current
  | current, segment :: rest =>
    ((g.publicMembers (g.holder current)).find? (g.admits segment (meaning.atSegment rest))).bind
      (g.walk? meaning · rest)

/-- The end of the first walk along all segments that starts at one of the candidates. -/
def lookup? (g : SymbolGraph) (meaning : Meaning) (candidates : List SymbolId) :
    List String → Option SymbolId
  | [] => none
  | first :: rest =>
    (candidates.filter (g.admits first (meaning.atSegment rest))).findSome? (g.walk? meaning · rest)

end SymbolGraph

namespace Setting

/-- The scopes in which a name is searched, in order: a context, and then the declarations around a
place from the inside out. -/
def scopes (setting : Setting) (context : List SymbolId) (enclosing : Option DeclId) :
    List SymbolId :=
  context ++ setting.program.lexicalScopes setting.options.maxScopePathDepth enclosing

/-- What a name denotes at a place: the first match among all scopes, and then among the global
names. -/
def denoted? (setting : Setting) (g : SymbolGraph) (segments : List String)
    (context : List SymbolId) (enclosing : Option DeclId) (meaning : Meaning) : Option SymbolId :=
  ((setting.scopes context enclosing).findSome? fun scope =>
    g.lookup? meaning (g.scopeChildren scope) segments).or
      (g.lookup? meaning (setting.program.globalSymbols (segments.head?.getD "")) segments)

end Setting

/-! ### What lookups change -/

namespace SymbolGraph

/-- The second graph comes from the first one by resolving aliases alone. -/
structure Advances (setting : Setting) (g g' : SymbolGraph) : Prop
    extends Firm setting (fun _ => False) g g' where
  resolves : g.Resolves setting g'
  size_eq : g'.size = g.size

/-- All aliases that are declared are resolved. -/
def Collapsed (g : SymbolGraph) : Prop :=
  ∀ a, g.kind? a = some .alias → g.declarations a ≠ [] → g.isResolved a

namespace Advances

variable {setting : Setting} {g g' g'' : SymbolGraph} {x : SymbolId}

theorem refl (h : Searchable setting g) : g.Advances setting g := ⟨.refl h, .refl _ _, rfl⟩

theorem trans (h : g.Advances setting g') (h' : g'.Advances setting g'') :
    g.Advances setting g'' :=
  ⟨h.toFirm.trans h'.toFirm, h.resolves.trans h'.resolves, h'.size_eq.trans h.size_eq⟩

theorem label?_eq (h : g.Advances setting g') (x : SymbolId) : g'.label? x = g.label? x := by
  by_cases hx : x < g.size
  · exact h.follows.label? hx
  · rw [label?, label?, (get?_eq_none_iff g x).mpr (Nat.not_lt.mp hx),
      (get?_eq_none_iff g' x).mpr (h.size_eq ▸ Nat.not_lt.mp hx)]

theorem admits_eq (h : g.Advances setting g') (name : String) (meaning : Meaning) :
    g'.admits name meaning = g.admits name meaning :=
  funext fun x => admits_congr (h.label?_eq x) name meaning

theorem publicMembers_eq (h : g.Advances setting g') (hg : g.WellFormed) (x : SymbolId) :
    g'.publicMembers x = g.publicMembers x := by
  by_cases hx : x < g.size
  · exact h.resolves.publicMembers_eq hg hx
  · have hout := outgoing_eq_nil (Nat.not_lt.mp hx)
    have hout' := outgoing_eq_nil (h.size_eq ▸ Nat.not_lt.mp hx : g'.size ≤ x)
    simp [publicMembers, listFor, SymbolGraph.targets_eq, hout, hout']

theorem scopeChildren_eq (h : g.Advances setting g') (hg : g.WellFormed) (x : SymbolId) :
    g'.scopeChildren x = g.scopeChildren x := by
  by_cases hx : x < g.size
  · exact h.resolves.scopeChildren_eq hg hx
  · have hnil : ∀ g : SymbolGraph, g.size ≤ x → g.scopeChildren x = [] := by
      intro g hx
      simp [scopeChildren, children, instanceType?, firstTarget, SymbolGraph.targets_eq, SymbolGraph.sources_eq,
        outgoing_eq_nil hx, incoming_eq_nil hx]
    rw [hnil g (Nat.not_lt.mp hx), hnil g' (h.size_eq ▸ Nat.not_lt.mp hx)]

/-- From a symbol that is no alias, or is a resolved one, members are reached in the same way. -/
theorem holder_eq (h : g.Advances setting g') (hg : Searchable setting g)
    (hx : g.kind? x = some .alias → g.isResolved x) : g'.holder x = g.holder x := by
  unfold holder
  rw [kind?_congr (h.label?_eq x)]
  split
  · next ha => exact h.standsFor_eq hg ha (hx ha)
  · rfl

end Advances

end SymbolGraph

/-- Lookups lead from the first state to the second one. They leave everything as it is if all aliases
are resolved. -/
structure Resolution.Searches (setting : Setting) (r r' : Resolution) : Prop where
  advances : r.graph.Advances setting r'.graph
  idle : r.graph.Collapsed → r' = r

namespace Resolution

variable {setting : Setting} {r r' r'' : Resolution}

theorem Searches.refl (h : Searchable setting r.graph) : r.Searches setting r := ⟨.refl h, fun _ => rfl⟩

theorem Searches.trans (h : r.Searches setting r') (h' : r'.Searches setting r'') :
    r.Searches setting r'' where
  advances := h.advances.trans h'.advances
  idle hall := by
    have hsame := h.idle hall
    subst hsame
    exact h'.idle hall

/-- The lookup succeeds. What it finds is declared, and can be read of the graph then and later. -/
def Finds (setting : Setting) (r : Resolution) (m : ResolveM (Option SymbolId))
    (answer : SymbolGraph → Option SymbolId) : Prop :=
  r.Returns m fun found r' => r.Searches setting r' ∧
    (∀ g, r'.graph.Advances setting g → found = answer g) ∧
      ∀ x ∈ found, r.graph.declarations x ≠ []

namespace Finds

variable {answer answer' : SymbolGraph → Option SymbolId} {α : Type} {m : ResolveM α}

protected theorem pure (h : Searchable setting r.graph) {found : Option SymbolId}
    (hanswer : ∀ g, r.graph.Advances setting g → found = answer g)
    (hfound : ∀ x ∈ found, r.graph.declarations x ≠ []) : r.Finds setting (pure found) answer :=
  Returns.pure ⟨.refl h, hanswer, hfound⟩

protected theorem none (h : Searchable setting r.graph)
    (hanswer : ∀ g, r.graph.Advances setting g → answer g = none) :
    r.Finds setting (pure none) answer :=
  Finds.pure h (fun g hg => (hanswer g hg).symm) fun _ hx => absurd hx (by simp)

/-- Another way to read the answer of later graphs. -/
protected theorem congr {m : ResolveM (Option SymbolId)} (h : r.Finds setting m answer')
    (heq : ∀ g, r.graph.Advances setting g → answer g = answer' g) : r.Finds setting m answer := by
  refine h.weaken fun found r' ⟨hr, hanswer, hfound⟩ => ⟨hr, fun g hg => ?_, hfound⟩
  rw [heq g (hr.advances.trans hg)]
  exact hanswer g hg

/-- The lookup goes on after another one. -/
protected theorem after {P : α → Resolution → Prop} {f : α → ResolveM (Option SymbolId)}
    (h : r.Returns m fun a r' => r.Searches setting r' ∧ P a r')
    (hf : ∀ a r', r.Searches setting r' → P a r' → r'.Finds setting (f a) answer) :
    r.Finds setting (m >>= f) answer := by
  refine h.bind fun a r' ⟨hr, ha⟩ => (hf a r' hr ha).weaken ?_
  rintro found r'' ⟨hr', hanswer, hfound⟩
  refine ⟨hr.trans hr', hanswer, fun x hx => ?_⟩
  rw [← hr.advances.declarations_eq]
  exact hfound x hx

protected theorem graph_bind {f : SymbolGraph → ResolveM (Option SymbolId)}
    (h : r.Finds setting (f r.graph) answer) :
    r.Finds setting (ResolveM.graph >>= f) answer := Returns.graph_bind h

/-- One lookup, and another one if it finds nothing. -/
protected theorem orElse {first : ResolveM (Option SymbolId)}
    {next : Option SymbolId → ResolveM (Option SymbolId)} (h : r.Finds setting first answer)
    (hsome : ∀ x, next (some x) = pure (some x))
    (hnone : ∀ r', r.Searches setting r' → r'.Finds setting (next none) answer') :
    r.Finds setting (first >>= next) fun g => (answer g).or (answer' g) := by
  refine Finds.after (P := fun found r' => (∀ g, r'.graph.Advances setting g → found = answer g) ∧
    ∀ x ∈ found, r.graph.declarations x ≠ []) h fun found r' hr ⟨hanswer, hfound⟩ => ?_
  cases found with
  | some x =>
      rw [hsome]
      refine Finds.pure hr.advances.toSearchable (fun g hg => ?_) fun y hy => ?_
      · rw [← hanswer g hg, Option.some_or]
      · rw [hr.advances.declarations_eq]
        exact hfound y hy
  | none =>
      refine (hnone r' hr).congr fun g hg => ?_
      rw [← hanswer g hg, Option.none_or]

/-- By induction on what is searched. -/
protected theorem findSomeM? {f : α → ResolveM (Option SymbolId)}
    {answer : SymbolGraph → α → Option SymbolId} (hr : Searchable setting r.graph) (as : List α)
    (h : ∀ a ∈ as, ∀ r', r.Searches setting r' → r'.Finds setting (f a) (answer · a)) :
    r.Finds setting (as.findSomeM? f) fun g => as.findSome? (answer g) := by
  induction as generalizing r with
  | nil => exact Finds.none hr fun _ _ => rfl
  | cons a as ih =>
      have hfirst := h a List.mem_cons_self r (.refl hr)
      have hrest : ∀ r', r.Searches setting r' →
          r'.Finds setting (as.findSomeM? f) fun g => as.findSome? (answer g) := fun r' hr' =>
        ih hr'.advances.toSearchable fun b hb r'' hr'' =>
          h b (List.mem_cons_of_mem a hb) r'' (hr'.trans hr'')
      have hor : r.Finds setting ((a :: as).findSomeM? f) fun g =>
          (answer g a).or (as.findSome? (answer g)) := hfirst.orElse (fun _ => rfl) hrest
      refine hor.congr fun g _ => ?_
      rw [List.findSome?_cons]
      cases answer g a <;> rfl

end Finds

end Resolution

namespace ResolveM

variable {setting : Setting} {r : Resolution}

/-! ### Names -/

section Search

/-- Declared aliases are resolved if needed, and are known to stand for the answer from then on. -/
def TracesAliases (setting : Setting) (aliasTarget : SymbolId → ResolveM SymbolId) : Prop :=
  ∀ r : Resolution, Searchable setting r.graph → ∀ c, r.graph.kind? c = some .alias →
    r.graph.declarations c ≠ [] → r.Returns (aliasTarget c) fun t r' => r.Searches setting r' ∧
      r'.graph.isResolved c ∧ t = r'.graph.standsFor c

variable {aliasTarget : SymbolId → ResolveM SymbolId} (h : TracesAliases setting aliasTarget)

include h

/-- By induction on the segments that are left. -/
theorem finds_walkMembers (hr : Searchable setting r.graph) (meaning : Meaning)
    {current : SymbolId} (hdecl : r.graph.declarations current ≠ []) (segments : List String) :
    r.Finds setting (walkMembers aliasTarget meaning current segments)
      (·.walk? meaning current segments) := by
  induction segments generalizing r current with
  | nil =>
      refine .pure hr (fun _ _ => rfl) ?_
      rintro _ ⟨⟩
      exact hdecl
  | cons segment rest ih =>
      have hgo : ∀ (holder : SymbolId) (r : Resolution), Searchable setting r.graph →
          (∀ g, r.graph.Advances setting g → g.holder current = holder) →
            r.Finds setting (walkOn aliasTarget meaning segment rest holder)
              (·.walk? meaning current (segment :: rest)) := by
        intro holder r hr hholder
        have hread : ∀ g, r.graph.Advances setting g → g.walk? meaning current (segment :: rest) =
            ((r.graph.publicMembers holder).find?
              (r.graph.admits segment (meaning.atSegment rest))).bind (g.walk? meaning · rest) := by
          intro g hg
          rw [walk?, hholder g hg, hg.publicMembers_eq hr.toWellFormed, hg.admits_eq]
        apply Resolution.Finds.graph_bind
        cases hfind : (r.graph.publicMembers holder).find?
            (r.graph.admits segment (meaning.atSegment rest)) with
        | none =>
            refine .none hr fun g hg => ?_
            rw [hread g hg, hfind]
            rfl
        | some next =>
            refine (ih hr (of_admits (List.find?_some hfind)).2).congr fun g hg => ?_
            rw [hread g hg, hfind]
            rfl
      rw [walkMembers_cons]
      apply Resolution.Finds.graph_bind
      split
      · next hk =>
        rw [beq_iff_eq] at hk
        refine .after (h r hr current hk hdecl) fun t r' hr' ⟨hmark, ht⟩ => ?_
        have hk' : r'.graph.kind? current = some .alias := hr'.advances.isAlias_iff.mpr hk
        refine hgo t r' hr'.advances.toSearchable fun g hg => ?_
        rw [hg.holder_eq hr'.advances.toSearchable fun _ => hmark, holder, if_pos hk', ht]
      · next hk =>
        rw [beq_iff_eq] at hk
        refine hgo current r hr fun g hg => ?_
        rw [hg.holder_eq hr fun hk' => absurd hk' hk, holder, if_neg hk]

theorem finds_lookupAmong (hr : Searchable setting r.graph) (candidates : List SymbolId)
    (segments : List String) (meaning : Meaning) :
    r.Finds setting (lookupAmong aliasTarget candidates segments meaning)
      (·.lookup? meaning candidates segments) := by
  cases segments with
  | nil => exact .none hr fun _ _ => rfl
  | cons first rest =>
      have hstep : r.Finds setting
          ((candidates.filter (r.graph.admits first (meaning.atSegment rest))).findSomeM?
            (walkMembers aliasTarget meaning · rest)) fun g =>
              (candidates.filter (r.graph.admits first (meaning.atSegment rest))).findSome?
                (g.walk? meaning · rest) := by
        refine .findSomeM? hr _ fun x hx r' hr' => ?_
        refine finds_walkMembers h hr'.advances.toSearchable meaning ?_ rest
        rw [hr'.advances.declarations_eq]
        exact (of_admits (List.mem_filter.mp hx).2).2
      refine .graph_bind (hstep.congr fun g hg => ?_)
      rw [lookup?, hg.admits_eq]

theorem finds_lookupPath (hr : Searchable setting r.graph) (segments : List String)
    (context : List SymbolId) (enclosing : Option DeclId) (meaning : Meaning) :
    r.Finds setting (lookupPath aliasTarget setting segments context enclosing meaning)
      (setting.denoted? · segments context enclosing meaning) := by
  unfold lookupPath
  split
  · next hnil =>
    refine .none hr fun g _ => ?_
    rw [List.isEmpty_iff] at hnil
    simp [Setting.denoted?, hnil, lookup?]
  · refine .orElse (.findSomeM? hr _ fun scope _ r' hr' => .graph_bind ?_) (fun _ => rfl)
      fun r' hr' => finds_lookupAmong h hr'.advances.toSearchable _ segments meaning
    refine (finds_lookupAmong h hr'.advances.toSearchable _ segments meaning).congr fun g hg => ?_
    rw [hg.scopeChildren_eq hr'.advances.toWellFormed]

end Search

/-! ### Names of one segment -/

/-- A search in which no step changes anything. -/
theorem run_findSomeM? {α β : Type} {f : α → ResolveM (Option β)} {answer : α → Option β}
    (as : List α) (h : ∀ a ∈ as, f a r = .ok (answer a) r) :
    as.findSomeM? f r = .ok (as.findSome? answer) r := by
  induction as with
  | nil => rfl
  | cons a as ih =>
      rw [List.findSomeM?_cons, run_bind_of_ok (h a List.mem_cons_self), List.findSome?_cons]
      cases answer a with
      | some b => rfl
      | none => exact ih fun a ha => h a (List.mem_cons_of_mem _ ha)

/-- No alias is followed for the only segment. -/
theorem run_lookupAmong_single (aliasTarget : SymbolId → ResolveM SymbolId) (r : Resolution)
    (candidates : List SymbolId) (name : String) (meaning : Meaning) :
    lookupAmong aliasTarget candidates [name] meaning r =
      .ok (r.graph.lookup? meaning candidates [name]) r :=
  run_findSomeM? (candidates.filter (r.graph.admits name (meaning.atSegment []))) fun _ _ => rfl

theorem run_findPath_single (setting : Setting) (r : Resolution) (name : String)
    (context : List SymbolId) (enclosing : Option DeclId) (meaning : Meaning) :
    findPath setting [name] context enclosing meaning r =
      .ok (setting.denoted? r.graph [name] context enclosing meaning) r := by
  have hscopes := run_findSomeM? (r := r) (setting.scopes context enclosing)
    (f := lookupFrom (aliasTarget setting) [name] meaning) fun scope _ =>
      run_lookupAmong_single (aliasTarget setting) r (r.graph.scopeChildren scope) name meaning
  rw [Setting.denoted?]
  refine (run_bind_of_ok hscopes).trans ?_
  cases (setting.scopes context enclosing).findSome? fun scope =>
      r.graph.lookup? meaning (r.graph.scopeChildren scope) [name] with
  | some found => rfl
  | none => exact run_lookupAmong_single (aliasTarget setting) r _ name meaning

/-! ### Aliases -/

end ResolveM

/-- Resolving an alias leads from the first state and gives the symbol that the alias stands for. Nothing
changes if that was done before. -/
structure Resolution.Reaches (setting : Setting) (r : Resolution) (x t : SymbolId) (r' : Resolution) :
    Prop where
  advances : r.graph.Advances setting r'.graph
  marked : r'.graph.isResolved x
  eq_standsFor : t = r'.graph.standsFor x
  idle : r.graph.isResolved x → r' = r
  edge : ¬r.graph.isResolved x → r'.graph.hasEdge ⟨x, t, .typedAs⟩

namespace ResolveM

variable {setting : Setting} {r : Resolution}

/-- Declared aliases are resolved if needed, and stand for the answer then. -/
def ResolvesAliases (setting : Setting) (resolve : SymbolId → ResolveM SymbolId) : Prop :=
  ∀ r : Resolution, Searchable setting r.graph → ∀ c, r.graph.kind? c = some .alias →
    r.graph.declarations c ≠ [] → r.Returns (resolve c) (r.Reaches setting c)

theorem run_settledTarget (r : Resolution) (x : SymbolId) :
    settledTarget x r = .ok (r.graph.standsFor x) r := rfl

theorem returns_settledTarget (hr : Searchable setting r.graph) {x : SymbolId}
    (hmark : r.graph.isResolved x) : r.Returns (settledTarget x) (r.Reaches setting x) :=
  ⟨_, r, run_settledTarget r x, .refl hr, hmark, rfl, fun _ => rfl, fun hnew => absurd hmark hnew⟩

/-- Resolved aliases are not resolved again. -/
theorem tracesAliases_settle {resolve : SymbolId → ResolveM SymbolId}
    (h : ResolvesAliases setting resolve) : TracesAliases setting (settle resolve) := by
  intro r hr c hk hdecl
  apply Resolution.Returns.graph_bind
  split
  · next hmark => exact ⟨_, r, run_settledTarget r c, .refl hr, hmark, rfl⟩
  · next hnew =>
    refine (h r hr c hk hdecl).weaken fun t r' ht => ⟨⟨ht.advances, ?_⟩, ht.marked, ht.eq_standsFor⟩
    exact fun hall => absurd (hall c hk hdecl) hnew

theorem returns_missing (hr : Searchable setting r.graph) (d : Diagnostic) :
    r.Returns (do report d; return WellKnown.error) fun t r' =>
      r.graph.Advances setting r'.graph ∧ r'.graph.IsPlain t :=
  (returns_report r d).bind fun _ _ hr' => .pure ⟨hr'.symm ▸ .refl hr, isPlain_error _⟩

theorem returns_requiredModule (hr : Searchable setting r.graph) (site : DeclSite)
    (reference : NodeRef) : r.Returns (requiredModule setting site reference) fun t r' =>
      r.graph.Advances setting r'.graph ∧ r'.graph.IsPlain t := by
  apply Resolution.Returns.graph_bind
  split
  · next found hfound =>
    have hk : r.graph.kind? found = some .dynamicModule := by simpa using List.find?_some hfound
    refine .pure ⟨.refl hr, .inr ⟨hr.global (List.mem_of_find?_eq_some hfound), ?_⟩⟩
    simp [hk]
  · exact returns_missing hr _

section Resolve

variable {resolve : SymbolId → ResolveM SymbolId} (h : ResolvesAliases setting resolve)

include h

theorem returns_namedTarget (hr : Searchable setting r.graph) (x : SymbolId) (site : DeclSite)
    (reference : NodeRef) : r.Returns (namedTarget setting resolve x site reference) fun t r' =>
      r.graph.Advances setting r'.graph ∧ r'.graph.IsPlain t := by
  refine (finds_lookupPath (tracesAliases_settle h) hr _ _ _ _).bind
    fun found r' ⟨hsearch, _, hfound⟩ => ?_
  have hr' := hsearch.advances.toSearchable
  have hmissing : ∀ d, r'.Returns (do report d; return WellKnown.error) fun t r'' =>
      r.graph.Advances setting r''.graph ∧ r''.graph.IsPlain t := fun d =>
    (returns_missing hr' d).weaken fun _ _ ht => ⟨hsearch.advances.trans ht.1, ht.2⟩
  cases found with
  | none => exact hmissing _
  | some found =>
      have hdecl : r'.graph.declarations found ≠ [] := by
        rw [hsearch.advances.declarations_eq]
        exact hfound found rfl
      dsimp only
      split
      · exact hmissing _
      · apply Resolution.Returns.graph_bind
        split
        · next hk =>
          rw [beq_iff_eq] at hk
          refine (h r' hr' found hk hdecl).weaken fun t r'' ht =>
            ⟨hsearch.advances.trans ht.advances, ?_⟩
          rw [ht.eq_standsFor]
          exact ht.advances.isPlain_standsFor (ht.advances.isAlias_iff.mpr hk)
        · next hk =>
          rw [beq_iff_eq] at hk
          exact .pure ⟨hsearch.advances, .inr ⟨hdecl, hk⟩⟩

/-- What an alias is declared to stand for is no alias. -/
theorem returns_declaredTarget (hr : Searchable setting r.graph) {x : SymbolId}
    (hx : x < r.graph.size) : r.Returns (declaredTarget setting resolve x) fun t r' =>
      r.graph.Advances setting r'.graph ∧ r'.graph.IsPlain t := by
  have herror : r.Returns (pure WellKnown.error) fun t r' =>
      r.graph.Advances setting r'.graph ∧ r'.graph.IsPlain t :=
    .pure ⟨.refl hr, isPlain_error _⟩
  refine (returns_firstSite hr hx).bind fun site? r' hr' => ?_
  subst hr'
  cases site? with
  | none => exact herror
  | some site =>
      dsimp only
      split
      · split
        · exact returns_requiredModule hr site _
        · exact returns_namedTarget h hr x site _
      · exact herror

end Resolve

end ResolveM

namespace SymbolGraph

variable {setting : Setting} {g g₀ g' : SymbolGraph} {x t : SymbolId}

theorem Resolves.pointOnly (h : g₀.Resolves setting g) {kind : EdgeKind} (hk : kind.isResolution)
    (hne : kind ≠ .extends) (hx : x < g.size) (ht : t < g.size) :
    g₀.Resolves setting (g.pointOnly x t kind) := by
  have hless := removeTargets_induction (P := fun g => g₀.Resolves setting g)
    (fun g y hg => hg.change (.drop ⟨x, y, kind⟩ hk)) ((g.targets x kind).filter (· != t)) h
  exact hless.change (.point ⟨x, t, kind⟩ hk (by rwa [size_removeTargets])
    (by rwa [size_removeTargets]) fun he => absurd he hne)

/-- An alias is marked, other ones are resolved, and it is given what it stands for. -/
theorem Advances.settle (h : (g.setResolved x true).Advances setting g') (hg : Searchable setting g)
    (hx : x < g.size) (hnew : ¬g.isResolved x) (ht : g'.IsPlain t) :
    g.Advances setting (g'.pointOnly x t .typedAs) := by
  have hx' : x < g'.size := by rwa [h.size_eq, size_setResolved]
  have htlt := h.lt_size_of_isPlain ht
  have hmark : Firm setting (fun y => False ∨ y = x) g (g.setResolved x true) :=
    (Firm.refl hg).mark fun _ _ => .inr rfl
  have hfirm := hmark.trans (h.toFirm.weaken fun _ _ hno => hno.elim)
  refine ⟨hfirm.close hx' htlt (fun _ => hnew) fun _ => ht, ?_, ?_⟩
  · have hresolves := ((Resolves.refl setting g).change (.mark x)).trans h.resolves
    exact hresolves.pointOnly rfl (by decide) hx' htlt
  · exact (size_eq_of_label? (label?_pointOnly g' x t .typedAs)).trans
      (h.size_eq.trans (size_setResolved g x true))

end SymbolGraph

namespace ResolveM

variable {setting : Setting} {r : Resolution} {x : SymbolId}

/-- What was found out is set. -/
theorem returns_settle {r' : Resolution} {t : SymbolId} (hr : Searchable setting r.graph)
    (hx : x < r.graph.size) (hnew : ¬r.graph.isResolved x)
    (hadv : (r.graph.setResolved x true).Advances setting r'.graph) (ht : r'.graph.IsPlain t) :
    r'.Returns (do setSingle x t .typedAs; return t) (r.Reaches setting x) := by
  have hx' : x < r'.graph.size := by rwa [hadv.size_eq, size_setResolved]
  have htlt := hadv.lt_size_of_isPlain ht
  refine (returns_setSingle hx' htlt .typedAs).bind fun _ r'' hr'' => .pure ?_
  have hedge : r''.graph.hasEdge ⟨x, t, .typedAs⟩ := by
    rw [hr'']
    exact (hadv.hasEdge_pointOnly rfl hx' htlt).mpr (.inl rfl)
  have hafter := hadv.settle hr hx hnew ht
  rw [← hr''] at hafter
  refine ⟨hafter, ?_, ?_, fun hmark => absurd hmark hnew, fun _ => hedge⟩
  · rw [hr'', isResolved_pointOnly]
    exact hadv.follows.isResolved ((isResolved_setResolved _ _ _).mpr (.inr ⟨rfl, hx⟩))
  · exact (standsFor_eq_of_hasEdge hafter.toMirrored hafter.single hedge).symm

/-- Resolving an alias succeeds, and so it does for any other symbol. By induction on the aliases that
may still be followed. -/
theorem returns_resolveAliasWithin (hops : Nat) (hr : Searchable setting r.graph)
    (hx : x < r.graph.size) :
    r.Returns (resolveAliasWithin setting hops x) (r.Reaches setting x) := by
  induction hops generalizing r x with
  | zero =>
      refine returns_begin_else hx (fun hnew => ?_) (returns_settledTarget hr)
      exact returns_settle hr hx hnew (.refl (hr.setResolved x)) (isPlain_error _)
  | succ hops ih =>
      have hresolve : ResolvesAliases setting (resolveAliasWithin setting hops) :=
        fun _ hr _ hk _ => ih hr (lt_size_of_kind? hk)
      refine returns_begin_else hx (fun hnew => ?_) (returns_settledTarget hr)
      refine (returns_declaredTarget hresolve (hr.setResolved x) (by rwa [size_setResolved])).bind
        fun t r' ⟨hadv, ht⟩ => returns_settle hr hx hnew hadv ht

theorem returns_resolveAlias (hr : Searchable setting r.graph) (hx : x < r.graph.size) :
    r.Returns (resolveAlias setting x) (r.Reaches setting x) :=
  returns_resolveAliasWithin Limits.aliasDepth hr hx

theorem returns_aliasTarget (hr : Searchable setting r.graph) (hx : x < r.graph.size) :
    r.Returns (aliasTarget setting x) (r.Reaches setting x) := by
  apply Resolution.Returns.graph_bind
  split
  · next hmark => exact returns_settledTarget hr hmark
  · exact returns_resolveAlias hr hx

/-- Every lookup succeeds and finds what the name denotes in the graph that it leaves behind. -/
theorem finds_findPath (hr : Searchable setting r.graph) (segments : List String)
    (context : List SymbolId) (enclosing : Option DeclId) (meaning : Meaning) :
    r.Finds setting (findPath setting segments context enclosing meaning)
      (setting.denoted? · segments context enclosing meaning) := by
  refine finds_lookupPath (tracesAliases_settle ?_) hr segments context enclosing meaning
  exact fun _ hr _ hk _ => returns_resolveAlias hr (lt_size_of_kind? hk)

end ResolveM

end NameBinding
