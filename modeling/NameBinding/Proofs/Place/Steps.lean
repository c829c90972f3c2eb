import NameBinding.Proofs.Contract
import NameBinding.Proofs.Graph.Steps
import NameBinding.Proofs.Place.Chart
import NameBinding.Proofs.Program.Text

/-! # Steps that keep a chart

Binding never fails on a charted program, and each of its steps changes the chart in one way. -/

namespace NameBinding

open SymbolGraph

theorem Decl.symbolKind?_unbind (d : Decl) : d.unbind.symbolKind? = d.symbolKind? := rfl

/-- The symbol has the kind that the declaration asks for. -/
def Chart.Names (c : Chart) (p : Program) (d : DeclId) (x : SymbolId) : Prop :=
  ∃ q y, c.place x = some q ∧ p.decl? d = some y ∧ q.kind? = y.symbolKind?

/-- Where symbols stand stays, and so do the texts of declarations. -/
theorem Chart.Names.mono {c c' : Chart} {p p' : Program} {d : DeclId} {x : SymbolId}
    (h : c.Names p d x) (hplace : ∀ {x q}, c.place x = some q → c'.place x = some q)
    (ht : p'.text = p.text) : c'.Names p' d x := by
  obtain ⟨q, y, hq, hy, hk⟩ := h
  obtain ⟨y', hy', heq⟩ := Program.exists_decl?_of_text_eq ht hy
  refine ⟨q, y', hplace hq, hy', hk.trans ?_⟩
  rw [← Decl.symbolKind?_unbind y', heq, Decl.symbolKind?_unbind]

namespace Binding

variable {c c' c'' : Chart} {b b' b'' : Binding}

namespace Charted

/-- A change of the program that lists a symbol at the top of a unit. -/
theorem addTopLevel (h : Charted c b) (unit : UnitId) {x : SymbolId} {q : Place}
    (hx : c.place x = some q) (htop : q.owner = .top) :
    Charted c ⟨b.graph, b.program.modifyUnit unit (·.addTopLevel q.name x)⟩ := by
  have hkeep : ∀ u ∈ b.program.units, ∃ u' ∈
      (b.program.modifyUnit unit (·.addTopLevel q.name x)).units, u'.id = u.id ∧ u'.path = u.path ∧
        ∀ n, u.topLevelSymbols n ⊆ u'.topLevelSymbols n := by
    intro u hu
    refine ⟨_, List.mem_map_of_mem hu, ?_⟩
    split
    · refine ⟨rfl, rfl, fun n y hy => ?_⟩
      simp only [CompilationUnit.topLevelSymbols, CompilationUnit.addTopLevel,
        CompilationUnit.lookup_enter]
      split
      · next hn => exact List.mem_append_left _ (hn.1 ▸ hy)
      · exact hy
    · exact ⟨rfl, rfl, fun n => List.Subset.refl _⟩
  exact {
    h with
    program := h.program.modifyUnit unit (by intro u; rfl) (by intro u; rfl) fun u hu => hu
    authored := fun hd => by
      obtain ⟨u, hu, hid, hspot⟩ := h.authored hd
      obtain ⟨u', hu', hid', hpath, -⟩ := hkeep u hu
      exact ⟨u', hu', hid'.trans hid, fun o s hs => hpath ▸ hspot o s hs⟩
    listed := fun {v y name} hv hy => by
      obtain ⟨u, hu, rfl⟩ := List.mem_map.mp hv
      split at hy
      · simp only [CompilationUnit.topLevelSymbols, CompilationUnit.addTopLevel,
          CompilationUnit.lookup_enter] at hy
        split at hy
        · next hn =>
          rcases List.mem_append.mp hy with hy | hy
          · exact h.listed hu (hn.1 ▸ hy)
          · obtain rfl := List.mem_singleton.mp hy
            refine ⟨h.lt_size hx, fun r hr => ?_⟩
            obtain rfl := Option.some.inj (hr.symm.trans hx)
            exact ⟨htop, hn.1.symm⟩
        · exact h.listed hu hy
      · exact h.listed hu hy
    global := fun hd hy => by
      obtain ⟨u, hu, hid, hmem⟩ := h.global hd hy
      obtain ⟨u', hu', hid', -, hsub⟩ := hkeep u hu
      exact ⟨u', hu', hid'.trans hid, hsub _ hmem⟩ }

/-- A change of the program that notes the symbol of a declaration. -/
theorem bindTo (h : Charted c b) (d : DeclId) (symbol : SymbolId) :
    Charted c ⟨b.graph, b.program.modifyUnit d.unit (·.modifyDecl d (·.bindTo symbol))⟩ := by
  have htop : ∀ u : CompilationUnit, (u.modifyDecl d (·.bindTo symbol)).topLevel = u.topLevel := by
    intro u
    unfold CompilationUnit.modifyDecl
    split <;> rfl
  have hback : ∀ v ∈ (b.program.modifyUnit d.unit (·.modifyDecl d (·.bindTo symbol))).units,
      ∃ u ∈ b.program.units, v.topLevel = u.topLevel := by
    intro v hv
    obtain ⟨u, hu, rfl⟩ := List.mem_map.mp hv
    refine ⟨u, hu, ?_⟩
    split
    · exact htop u
    · rfl
  have hkeep : ∀ u ∈ b.program.units, ∃ u' ∈
      (b.program.modifyUnit d.unit (·.modifyDecl d (·.bindTo symbol))).units, u'.id = u.id ∧
        u'.path = u.path ∧ u'.topLevel = u.topLevel := by
    intro u hu
    refine ⟨_, List.mem_map_of_mem hu, ?_⟩
    split
    · exact ⟨CompilationUnit.id_modifyDecl _ _ _, CompilationUnit.path_modifyDecl _ _ _, htop u⟩
    · exact ⟨rfl, rfl, rfl⟩
  exact {
    h with
    program := h.program.modifyUnit d.unit (fun u => CompilationUnit.id_modifyDecl u d _)
      (fun u => CompilationUnit.path_modifyDecl u d _) fun u hu => hu.modifyDecl d fun _ => rfl
    authored := fun hd => by
      obtain ⟨u, hu, hid, hspot⟩ := h.authored hd
      obtain ⟨u', hu', hid', hpath, -⟩ := hkeep u hu
      exact ⟨u', hu', hid'.trans hid, fun o s hs => hpath ▸ hspot o s hs⟩
    listed := fun {v y name} hv hy => by
      obtain ⟨u, hu, hu'⟩ := hback v hv
      exact h.listed hu (by simpa only [CompilationUnit.topLevelSymbols, hu'] using hy)
    global := fun hd hy => by
      obtain ⟨u, hu, hid, hmem⟩ := h.global hd hy
      obtain ⟨u', hu', hid', -, hu''⟩ := hkeep u hu
      exact ⟨u', hu', hid'.trans hid, by simpa only [CompilationUnit.topLevelSymbols, hu''] using hmem⟩ }

end Charted

/-! ### Steps -/

/-- A charted program with all that an earlier one has, and the same text. All that is new is on the
chart. -/
structure Leads (c : Chart) (b : Binding) (c' : Chart) (b' : Binding) : Prop where
  charted : Charted c' b'
  place : ∀ {x q}, c.place x = some q → c'.place x = some q
  descends : c.Descends → c'.Descends
  text : b'.program.text = b.program.text
  size : b.graph.size ≤ b'.graph.size
  seated : ∀ {x}, b.graph.size ≤ x → x < b'.graph.size → ∃ q, c'.place x = some q
  label : ∀ {x}, x < b.graph.size → c'.place x = none → b'.graph.label? x = b.graph.label? x
  joins : ∀ {e : Edge}, b'.graph.hasEdge e → b.graph.hasEdge e ∨ c'.Joins e
  named : ∀ {d x}, b'.program.symbol? d = some x →
    b.program.symbol? d = some x ∨ c'.Names b'.program d x

namespace Leads

theorem refl (h : Charted c b) : Leads c b c b where
  charted := h
  place hx := hx
  descends hd := hd
  text := rfl
  size := Nat.le_refl _
  seated hle hlt := absurd hlt (Nat.not_lt.mpr hle)
  label _ _ := rfl
  joins := .inl
  named := .inl

/-- Both steps together. The chart of the second one knows all that the first one put on it. -/
theorem trans (h : Leads c b c' b') (h' : Leads c' b' c'' b'') : Leads c b c'' b'' where
  charted := h'.charted
  place hx := h'.place (h.place hx)
  descends hd := h'.descends (h.descends hd)
  text := h'.text.trans h.text
  size := Nat.le_trans h.size h'.size
  seated {x} hle hlt := by
    by_cases hx : x < b'.graph.size
    · obtain ⟨q, hq⟩ := h.seated hle hx
      exact ⟨q, h'.place hq⟩
    · exact h'.seated (Nat.not_lt.mp hx) hlt
  label {x} hlt hnone := by
    have hnone' : c'.place x = none := by
      refine Option.eq_none_iff_forall_ne_some.mpr fun q hq => ?_
      exact absurd (hnone.symm.trans (h'.place hq)) (by simp)
    rw [h'.label (Nat.lt_of_lt_of_le hlt h.size) hnone, h.label hlt hnone']
  joins {e} he := by
    rcases h'.joins he with he' | hj
    · rcases h.joins he' with he'' | hj
      · exact .inl he''
      · have hends := hj.placed.1
        obtain ⟨q, hq⟩ := Option.isSome_iff_exists.mp hends
        refine .inr ((h'.charted.joined (h.charted.isStructural hj) (.inl ?_)).mp he)
        rw [h'.place hq]
        rfl
    · exact .inr hj
  named hx := by
    rcases h'.named hx with hx' | hn
    · exact (h.named hx').imp_right fun hn => hn.mono h'.place h'.text
    · exact .inr hn

/-- The chart says more of the same graph. -/
theorem rechart (h : Charted c' b) (hplace : c'.place = c.place) : Leads c b c' b :=
  { refl h with
    place := fun hx => hplace ▸ hx
    descends := fun hd => by
      unfold Chart.Descends
      rw [hplace]
      exact hd }

/-- A change of the program that keeps its text. -/
theorem ofProgram {p : Program} (h : Charted c ⟨b.graph, p⟩) (ht : p.text = b.program.text)
    (hnamed : ∀ {d x}, p.symbol? d = some x → b.program.symbol? d = some x ∨ c.Names p d x) :
    Leads c b c ⟨b.graph, p⟩ :=
  { refl h with text := ht, named := hnamed }

/-- A change of the graph that adds no symbol. -/
theorem ofGraph {g : SymbolGraph} (h : Charted c' ⟨g, b.program⟩) (hplace : c'.place = c.place)
    (hlabel : ∀ {x}, c'.place x = none → g.label? x = b.graph.label? x)
    (hsize : g.size = b.graph.size)
    (hjoins : ∀ {e : Edge}, g.hasEdge e → b.graph.hasEdge e ∨ c'.Joins e) :
    Leads c b c' ⟨g, b.program⟩ where
  charted := h
  place hx := hplace ▸ hx
  descends hd := by
    unfold Chart.Descends
    rw [hplace]
    exact hd
  text := rfl
  size := Nat.le_of_eq hsize.symm
  seated hle hlt := absurd hlt (Nat.not_lt.mpr (hsize ▸ hle))
  label _ hnone := hlabel hnone
  joins := hjoins
  named := .inl

end Leads

/-- The step does not fail, and leads to a charted program. -/
def Charts {α : Type} (c : Chart) (b : Binding) (m : BindM α)
    (post : α → Chart → Binding → Prop) : Prop :=
  Contract (· = b) m (fun a b' => ∃ c', Leads c b c' b' ∧ post a c' b') fun _ => False

namespace Charts

variable {α β : Type} {m : BindM α} {post Q : α → Chart → Binding → Prop}

protected theorem weaken {post' : α → Chart → Binding → Prop} (h : Charts c b m post)
    (hpost : ∀ a c' b', Leads c b c' b' → post a c' b' → post' a c' b') : Charts c b m post' := by
  refine Contract.weaken h (fun _ hb => hb) ?_ fun _ hb => hb
  rintro a b' ⟨c', hl, hq⟩
  exact ⟨c', hl, hpost a c' b' hl hq⟩

protected theorem pure {a : α} (h : Charted c b) (hpost : post a c b) :
    Charts c b (pure a) post := by
  rintro _ rfl
  exact ⟨c, .refl h, hpost⟩

protected theorem bind {f : α → BindM β} {post : β → Chart → Binding → Prop}
    (hm : Charts c b m Q)
    (hf : ∀ a c' b', Leads c b c' b' → Q a c' b' → Charts c' b' (f a) post) :
    Charts c b (m >>= f) post := by
  refine Contract.bind hm fun a => ?_
  rintro b₁ ⟨c₁, hl, hq⟩
  have h := hf a c₁ b₁ hl hq b₁ rfl
  split at h
  · obtain ⟨c₂, hl₂, hq₂⟩ := h
    exact ⟨c₂, hl.trans hl₂, hq₂⟩
  · exact h

protected theorem get_bind {f : Binding → BindM α} (h : Charts c b (f b) post) :
    Charts c b (get >>= f) post :=
  Contract.get_bind fun _ hs => hs ▸ h

protected theorem graph_bind {f : SymbolGraph → BindM α} (h : Charts c b (f b.graph) post) :
    Charts c b (BindM.graph >>= f) post := by
  intro s hs
  exact hs ▸ h b rfl

/-- The chart may say more, as long as it is right. -/
protected theorem rechart (c' : Chart) (hc : Charted c' b) (hplace : c'.place = c.place)
    (h : Charts c' b m post) : Charts c b m post := by
  refine Contract.weaken h (fun _ hb => hb) ?_ fun _ hb => hb
  rintro a b' ⟨c'', hl, hq⟩
  exact ⟨c'', Leads.trans (.rechart hc hplace) hl, hq⟩

/-- A step on the graph, which the chart follows. -/
protected theorem onGraph {step : GraphM α} {a : α} {g : SymbolGraph} (c' : Chart)
    (hstep : step b.graph = .ok a g) (hl : Leads c b c' ⟨g, b.program⟩)
    (hpost : post a c' ⟨g, b.program⟩) : Charts c b (BindM.onGraph step) post := by
  rintro s rfl
  unfold BindM.onGraph
  rw [hstep]
  exact ⟨c', hl, hpost⟩

end Charts

variable {x y : SymbolId} {q : Place} {d : DeclId}

/-- What stands in no symbol yet can take the last position. -/
theorem Charted.descends_seat (h : Charted c b) (hd : c.Descends)
    (hnew : ∀ y, c.place y ≠ some q) (hp : q.Proper)
    (howned : q.owner = .top ∨ ∃ y, c.place y = some q.owner) :
    (c.seat b.graph.size q).Descends := by
  have hself : ∀ {r : Place}, (r.owner = .top ∨ ∃ y, c.place y = some r.owner) → r.owner ≠ q := by
    rintro r (htop | ⟨y, hy⟩) rfl
    · rw [htop] at hp
      exact hp
    · exact hnew y hy
  intro x y r hx hy
  simp only [Chart.seat] at hx hy
  split at hx
  · obtain rfl := Option.some.inj hx
    split at hy
    · exact absurd (Option.some.inj hy).symm (hself howned)
    · next hxs _ => exact hxs ▸ h.lt_size hy
  · split at hy
    · exact absurd (Option.some.inj hy).symm (hself (h.owned hx))
    · exact hd hx hy

theorem Charted.charts_alloc (h : Charted c b) {kind : SymbolKind} {flags : Flags SymbolFlag}
    (hnew : ∀ y, c.place y ≠ some q) (hp : q.Proper) (hkind : q.kind? = some kind)
    (hmarks : q.Marks flags) (howned : q.owner = .top ∨ ∃ y, c.place y = some q.owner) :
    Charts c b (BindM.alloc q.name kind flags) fun x c' b' =>
      x = b.graph.size ∧ c' = c.seat x q ∧ b'.program = b.program := by
  have hne : ∀ {x}, x < b.graph.size → (x = b.graph.size) = False := fun hx =>
    eq_false (Nat.ne_of_lt hx)
  refine Charts.onGraph (c.seat b.graph.size q) rfl ?_ ⟨rfl, rfl, rfl⟩
  exact {
    charted := h.seat hnew hp hkind hmarks howned
    place := fun hy => by simpa only [Chart.seat, hne (h.lt_size hy), if_false] using hy
    descends := fun hd => h.descends_seat hd hnew hp howned
    text := rfl
    size := by
      rw [size_alloc]
      exact Nat.le_succ _
    seated := fun {x} hle hlt => by
      rw [size_alloc] at hlt
      exact ⟨q, if_pos (Nat.le_antisymm (Nat.lt_succ_iff.mp hlt) hle)⟩
    label := fun hlt _ => by
      rw [label?_alloc, if_neg (Nat.ne_of_lt hlt)]
    joins := fun {e} he => .inl (by simpa [hasEdge] using he)
    named := .inl }

/-- Edges that hang a symbol on its owner. -/
theorem Charted.leads_attach (h : Charted c b) {a : Attachment} {e : Edge}
    (hx : c.place x = some q) (hnone : c.attachment x = none) (hacc : q.Accepts a)
    (hy : c.place y = some q.owner)
    (hedges : ∀ e', e' ∈ a.edges y x ↔ e' = e ∨ (e.kind.isMembership ∧ e' = e.backward)) :
    (e.source < b.graph.size ∧ e.target < b.graph.size) ∧
      Leads c b (c.attach x a) ⟨b.graph.addEdge e, b.program⟩ := by
  have hends : e.source < b.graph.size ∧ e.target < b.graph.size := by
    have hlx := h.lt_size hx
    have hly := h.lt_size hy
    rcases Attachment.ends_of_mem_edges ((hedges e).mpr (.inl rfl)) with ⟨hs, ht⟩ | ⟨hs, ht⟩ <;>
      simp [hs, ht, hlx, hly]
  have hadd : ∀ e', (b.graph.addEdge e).hasEdge e' ↔ b.graph.hasEdge e' ∨ e' ∈ a.edges y x := by
    intro e'
    rw [hasEdge_addEdge hends.1 hends.2, hedges]
  have hcharted := h.attach hx hnone hacc hy (h.wellFormed.addEdge hends.1 hends.2)
    (label?_addEdge _ _) hadd
  refine ⟨hends, .ofGraph hcharted rfl (fun _ => label?_addEdge _ _ _)
    (size_eq_of_label? (label?_addEdge _ _)) fun {e'} he => ?_⟩
  refine ((hadd e').mp he).imp_right fun he => ⟨x, y, q, a, hx, hy, if_pos rfl, he⟩

theorem Charted.charts_link (h : Charted c b) {a : Attachment} {e : Edge}
    (hx : c.place x = some q) (hnone : c.attachment x = none) (hacc : q.Accepts a)
    (hy : c.place y = some q.owner)
    (hedges : ∀ e', e' ∈ a.edges y x ↔ e' = e ∨ (e.kind.isMembership ∧ e' = e.backward)) :
    Charts c b (BindM.link e.source e.target e.kind) fun _ c' b' =>
      c' = c.attach x a ∧ b'.program = b.program := by
  obtain ⟨hends, hl⟩ := h.leads_attach hx hnone hacc hy hedges
  unfold BindM.link
  refine Charts.bind (Q := fun _ c' b' => c' = c.attach x a ∧ b'.program = b.program) ?_ ?_
  · exact Charts.onGraph _ (GraphM.link_eq_ok e.kind hends.1 hends.2) hl ⟨rfl, rfl⟩
  · exact fun _ c' b' hl hq => Charts.pure hl.charted hq

theorem Charted.charts_contribute (h : Charted c b) (hx : c.place x = some q)
    (hauthor : ∃ u ∈ b.program.units, u.id = d.unit ∧
      (∀ owner spot, q = .single owner spot → spot.file = u.path ∧ spot.index = d.index) ∧
      ∀ name kind, q = .shared .top name kind → x ∈ u.topLevelSymbols name) :
    Charts c b (BindM.contribute x d) fun _ c' b' =>
      c' = c.contribute d q ∧ b'.program = b.program := by
  refine Charts.onGraph (c.contribute d q) (GraphM.declare_eq_ok d (h.lt_size hx)) ?_ ⟨rfl, rfl⟩
  refine .ofGraph (h.contribute hx hauthor) rfl (fun {z} hz => ?_) (size_declare _ _ _)
    fun he => .inl (by simpa [hasEdge] using he)
  have hne : z ≠ x := by
    rintro rfl
    exact absurd (hx.symm.trans hz) (by simp)
  exact label?_declare_of_ne b.graph d hne

theorem Charted.charts_record (h : Charted c b) (hx : c.place x = some q)
    (hkind : ∃ y, b.program.decl? d = some y ∧ q.kind? = y.symbolKind?)
    (hauthor : ∃ u ∈ b.program.units, u.id = d.unit ∧
      (∀ owner spot, q = .single owner spot → spot.file = u.path ∧ spot.index = d.index) ∧
      ∀ name kind, q = .shared .top name kind → x ∈ u.topLevelSymbols name) :
    Charts c b (BindM.record d x) fun _ c' _ => c' = c.contribute d q := by
  obtain ⟨y, hy, hk⟩ := hkind
  unfold BindM.record
  refine (h.charts_contribute hx hauthor).bind fun _ c₁ b₁ hl ⟨hc₁, hp₁⟩ => ?_
  refine Charts.get_bind ?_
  have hnot : ¬(b₁.program.decl? d).isNone := by
    rw [hp₁, hy]
    simp
  dsimp only
  rw [if_neg hnot]
  rintro _ rfl
  refine ⟨c₁, .ofProgram (hl.charted.bindTo d x) ?_ fun {d' x'} hx' => ?_, hc₁⟩
  · exact Program.text_modifyUnit _ _ fun u => CompilationUnit.text_modifyDecl u d fun _ => rfl
  · rw [Program.symbol?_bindTo, hp₁] at hx'
    split at hx'
    · next hd =>
      subst hd
      rw [hy, Option.map_some, Option.some.injEq] at hx'
      cases hs : y.symbol with
      | some x₀ =>
          rw [hs, Option.getD_some] at hx'
          exact .inl (by rw [hp₁, Program.symbol?, hy, Option.bind_some, hs, hx'])
      | none =>
          rw [hs, Option.getD_none] at hx'
          refine .inr ⟨q, y.bindTo x, ?_, ?_, hk⟩
          · rw [hc₁, ← hx']
            exact hx
          · rw [hp₁, Program.decl?_modifyDecl, if_pos rfl, hy]
            rfl
    · exact .inl (by rw [hp₁]; exact hx')

theorem Charted.charts_addTopLevel (h : Charted c b) (unit : UnitId) (hx : c.place x = some q)
    (htop : q.owner = .top) :
    Charts c b (BindM.addTopLevel unit q.name x) fun _ c' b' => c' = c ∧
      ∀ u ∈ b'.program.units, u.id = unit → x ∈ u.topLevelSymbols q.name := by
  rintro _ rfl
  refine ⟨c, .ofProgram (h.addTopLevel unit hx htop) ?_ fun {d' x'} hd' => .inl ?_, rfl, ?_⟩
  · exact Program.text_modifyUnit _ _ fun u => rfl
  · rwa [Program.symbol?_addTopLevel] at hd'
  · intro v hv hid
    obtain ⟨u, hu, rfl⟩ := List.mem_map.mp hv
    split
    · simp only [CompilationUnit.topLevelSymbols, CompilationUnit.addTopLevel,
        CompilationUnit.lookup_enter]
      split
      · exact List.mem_append_right _ (List.mem_singleton_self x)
      · next hn => exact by_contra fun hm => hn ⟨True.intro, hm⟩
    · next hn =>
      rw [if_neg hn] at hid
      exact absurd hid hn

end Binding

end NameBinding
