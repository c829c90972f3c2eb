import NameBinding.Proofs.Resolve.Scene

/-! # What a step leaves behind if it succeeds

For what is known of a step whenever it succeeds, from one state at a time. What is left behind by a
failure is not considered. -/

namespace NameBinding

open SymbolGraph

/-- If the step succeeds from the state, its answer and what it leaves behind are as stated. -/
def Resolution.Yields {α : Type} (r : Resolution) (m : ResolveM α)
    (post : α → Resolution → Prop) : Prop :=
  Contract (· = r) m post fun _ => True

namespace Resolution.Yields

variable {α β : Type} {r : Resolution} {m : ResolveM α} {post post' : α → Resolution → Prop}

protected theorem ok (h : r.Yields m post) {a : α} {r' : Resolution} (hr : m r = .ok a r') :
    post a r' := Contract.ok h rfl hr

protected theorem weaken (h : r.Yields m post) (hpost : ∀ a r', post a r' → post' a r') :
    r.Yields m post' := Contract.weaken h (fun _ hr => hr) hpost fun _ hr => hr

protected theorem pure {a : α} (h : post a r) : r.Yields (pure a) post :=
  Contract.pure a fun _ hr => hr ▸ h

protected theorem throw (e : BindError) : r.Yields (throw e) post :=
  Contract.throw e fun _ _ => True.intro

protected theorem bind {f : α → ResolveM β} {post : β → Resolution → Prop}
    (h : r.Yields m post') (hf : ∀ a r', post' a r' → r'.Yields (f a) post) :
    r.Yields (m >>= f) post :=
  Contract.bind h fun a r' hr' => hf a r' hr' r' rfl

protected theorem graph_bind {f : SymbolGraph → ResolveM α} (h : r.Yields (f r.graph) post) :
    r.Yields (ResolveM.graph >>= f) post := by
  rintro _ rfl
  exact h _ rfl

protected theorem modify {f : Resolution → Resolution} {post : PUnit → Resolution → Prop}
    (h : post ⟨⟩ (f r)) : r.Yields (modify f : ResolveM PUnit) post :=
  Contract.modify fun _ hr => hr ▸ h

/-- A loop keeps what each of its rounds keeps. -/
protected theorem forM {inv : Resolution → Prop} {f : α → ResolveM PUnit} (hr : inv r)
    (as : List α) (h : ∀ a ∈ as, ∀ r, inv r → r.Yields (f a) fun _ => inv) :
    r.Yields (as.forM f) fun _ => inv := by
  induction as generalizing r with
  | nil => exact .pure hr
  | cons a as ih =>
      refine (h a List.mem_cons_self r hr).bind fun _ r' hr' => ih hr' ?_
      exact fun b hb => h b (List.mem_cons_of_mem a hb)

/-- A search keeps what each of its rounds keeps, and finds what one of them finds. -/
protected theorem findSomeM? {inv : Resolution → Prop} {f : α → ResolveM (Option β)}
    {Q : Option β → Prop} (hr : inv r) (hnone : Q none) (as : List α)
    (h : ∀ a ∈ as, ∀ r, inv r → r.Yields (f a) fun b r' => inv r' ∧ Q b) :
    r.Yields (as.findSomeM? f) fun b r' => inv r' ∧ Q b := by
  induction as generalizing r with
  | nil => exact .pure ⟨hr, hnone⟩
  | cons a as ih =>
      refine (h a List.mem_cons_self r hr).bind fun b r' hr' => ?_
      cases b with
      | none => exact ih hr'.1 fun b hb => h b (List.mem_cons_of_mem a hb)
      | some b => exact .pure hr'

end Resolution.Yields

namespace ResolveM

variable {setting : Setting} {r : Resolution} {α : Type}

/-! ### Changes -/

/-- A step on the graph leaves the log alone. -/
theorem yields_onGraph {step : GraphM α} {post : α → SymbolGraph → Prop}
    (h : Contract (· = r.graph) step post fun _ => True) :
    r.Yields (onGraph step) fun a r' => ∃ g, post a g ∧ r' = { r with graph := g } := by
  rintro _ rfl
  have hstep := h _ rfl
  unfold onGraph
  split at hstep
  · next hs =>
    rw [hs]
    exact ⟨_, hstep, rfl⟩
  · next hs =>
    rw [hs]
    exact True.intro

theorem yields_alloc (r : Resolution) (name : String) (kind : SymbolKind)
    (flags : Flags SymbolFlag) : r.Yields (alloc name kind flags) fun x r' =>
      x = r.graph.size ∧ r' = { r with graph := r.graph.alloc name kind flags } := by
  rintro _ rfl
  exact ⟨rfl, rfl⟩

theorem yields_link (r : Resolution) (source target : SymbolId) (kind : EdgeKind) :
    r.Yields (link source target kind) fun _ r' => source < r.graph.size ∧ target < r.graph.size ∧
      r' = { r with graph := r.graph.addEdge ⟨source, target, kind⟩ } := by
  have hlink := (GraphM.contract_link (P := (· = r.graph)) source target kind).weaken
    (fun _ h => h) (fun _ _ h => h) fun _ _ => True.intro
  refine (yields_onGraph hlink).bind fun _ r' hr' => .pure ?_
  obtain ⟨_, ⟨_, rfl, hs, ht, rfl⟩, rfl⟩ := hr'
  exact ⟨hs, ht, rfl⟩

theorem yields_setSingle (r : Resolution) (source target : SymbolId) (kind : EdgeKind) :
    r.Yields (setSingle source target kind) fun _ r' =>
      source < r.graph.size ∧ target < r.graph.size ∧ r' = { r with
        graph := (r.graph.removeTargets source kind
          ((r.graph.targets source kind).filter (· != target))).addEdge ⟨source, target, kind⟩ } := by
  refine (yields_onGraph (GraphM.contract_setSingle source target kind)).weaken ?_
  rintro _ _ ⟨_, ⟨_, rfl, hs, ht, rfl⟩, rfl⟩
  exact ⟨hs, ht, rfl⟩

theorem yields_markResolved (r : Resolution) (x : SymbolId) : r.Yields (markResolved x)
    fun _ r' => r' = { r with graph := r.graph.setResolved x true } := .modify rfl

theorem yields_removeOutgoing (r : Resolution) (x : SymbolId) (kind : EdgeKind) :
    r.Yields (removeOutgoing x kind) fun _ r' => r' = { r with
      graph := r.graph.removeTargets x kind (r.graph.targets x kind) } := .modify rfl

/-- What is reported is in the log then, and nothing is lost. -/
theorem yields_report (r : Resolution) (d : Diagnostic) : r.Yields (report d) fun _ r' =>
    r'.graph = r.graph ∧ d ∈ r'.diagnostics ∧ r.diagnostics ⊆ r'.diagnostics := by
  refine .modify ?_
  split
  · next hd => exact ⟨rfl, hd, List.Subset.refl _⟩
  · exact ⟨rfl, List.mem_append_right _ (List.mem_singleton_self d), List.subset_append_left _ _⟩

/-- Either the symbol is marked now, or it was marked before. -/
theorem yields_begin (r : Resolution) (x : SymbolId) : r.Yields (begin x) fun new r' =>
    if new then (x < r.graph.size ∧ ¬r.graph.isResolved x) ∧
      r' = { r with graph := r.graph.setResolved x true } else r.graph.isResolved x ∧ r' = r := by
  unfold begin
  refine .graph_bind ?_
  cases hx : r.graph.get? x with
  | none => exact .throw _
  | some s =>
      have hlt : x < r.graph.size := by simpa [hx] using (isSome_get? r.graph x).symm
      dsimp only
      split
      · next hr => exact .pure ⟨by simp [isResolved, hx, hr], rfl⟩
      · next hr =>
        refine (yields_markResolved r x).bind fun _ r' hr' => .pure ?_
        rw [if_pos rfl]
        exact ⟨⟨hlt, by simpa [isResolved, hx] using hr⟩, hr'⟩

/-- Work that is done once for a symbol, and another answer if it was done. -/
theorem yields_begin_else {x : SymbolId} {work rest : ResolveM α}
    {post : α → Resolution → Prop}
    (hwork : x < r.graph.size → ¬r.graph.isResolved x →
      Resolution.Yields { r with graph := r.graph.setResolved x true } work post)
    (hrest : r.graph.isResolved x → r.Yields rest post) :
    r.Yields (do if ← begin x then work else rest) post := by
  refine (yields_begin r x).bind fun new r' hr' => ?_
  cases new with
  | true =>
      obtain ⟨⟨hlt, hnew⟩, rfl⟩ := hr'
      exact hwork hlt hnew
  | false =>
      obtain ⟨hold, rfl⟩ := hr'
      exact hrest hold

theorem yields_begin_then {x : SymbolId} {work : ResolveM Unit} {inv : Resolution → Prop}
    (hr : inv r) (hwork : x < r.graph.size → ¬r.graph.isResolved x →
      Resolution.Yields { r with graph := r.graph.setResolved x true } work fun _ => inv) :
    r.Yields (do if ← begin x then work) fun _ => inv :=
  yields_begin_else hwork fun _ => .pure hr

/-! ### What is only read -/

theorem yields_declarations (r : Resolution) (x : SymbolId) : r.Yields (declarations x)
    fun ds r' => ds = r.graph.declarations x ∧ r' = r := by
  unfold declarations
  refine .graph_bind ?_
  cases hx : r.graph.get? x with
  | none => exact .throw _
  | some s => exact .pure ⟨by rw [SymbolGraph.declarations, hx]; rfl, rfl⟩

theorem yields_site (r : Resolution) (setting : Setting) (d : DeclId) :
    r.Yields (site setting d) fun site r' => setting.site? d = some site ∧ r' = r := by
  unfold site Setting.site?
  cases setting.program.unitById? d.unit with
  | none => exact .throw _
  | some u =>
      dsimp only
      cases hd : u.decl? d with
      | none => exact .throw _
      | some decl => exact .pure ⟨by rw [Option.bind_some, hd]; rfl, rfl⟩

theorem yields_firstSite (r : Resolution) (setting : Setting) (x : SymbolId) :
    r.Yields (firstSite setting x) fun site? r' =>
      (site? = none → r.graph.declarations x = []) ∧
        (∀ site, site? = some site → setting.firstSite? r.graph x = some site) ∧ r' = r := by
  unfold firstSite
  refine (yields_declarations r x).bind fun ds r' hr' => ?_
  obtain ⟨rfl, rfl⟩ := hr'
  cases hd : (r'.graph.declarations x).head? with
  | none => exact .pure ⟨fun _ => List.head?_eq_none_iff.mp hd, fun _ h => absurd h (by simp), rfl⟩
  | some d =>
      refine (yields_site r' setting d).bind fun site r'' hr'' => .pure ?_
      obtain ⟨hsite, rfl⟩ := hr''
      refine ⟨fun h => absurd h (by simp), ?_, rfl⟩
      rintro _ ⟨⟩
      rw [Setting.firstSite?, hd]
      exact hsite

end ResolveM

end NameBinding
