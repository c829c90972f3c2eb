import Mathlib.Data.Finset.Card
import NameBinding.Proofs.Resolve.Work

/-! # What each symbol adds

The work for a symbol adds facts of its own, and asks for the work for other symbols. In a settled
scene there are the own facts of the symbols that are resolved, and no others. -/

namespace NameBinding

open SymbolGraph ResolveM

namespace Start

/-! ### Own facts -/

/-- What the rest of the work for a symbol adds. -/
noncomputable def made (b : Start) (x : SymbolId) : Set Fact :=
  Classical.epsilon (b.Works x (b.work x))

theorem works_made {b : Start} {x : SymbolId} (hx : x < b.size) : b.Works x (b.work x) (b.made x) :=
  Classical.epsilon_spec (exists_works hx)

/-- An entry among the bases of a symbol, of the type that has the bases. -/
inductive Entry (b : Start) (x type : SymbolId) (site : DeclSite) (entry : NodeRef) :
    Nat → EdgeKind → Prop
  | extended {notObject : Nat} (hx : b.baseOwner type = x)
      (h : b.setting.BaseEntry b.graph type site entry notObject) :
      Entry b x type site entry notObject .extends
  | implemented {d : DeclId} {c : ClassDecl} (hside : b.graph.hasEdge ⟨x, type, .instanceType⟩)
      (hd : d ∈ b.graph.declarations x) (hsite : b.setting.site? d = some site)
      (hc : site.tree.classDecl? site.decl.node = some c) (he : entry ∈ c.implemented) :
      Entry b x type site entry Message.classBaseNotObject .implements

/-- What an entry among the bases of a type adds. -/
inductive EntryFact (b : Start) (type : SymbolId) (site : DeclSite) (entry : NodeRef)
    (notObject : Nat) (kind : EdgeKind) : Fact → Prop
  | reported {base? : Option SymbolId} {r : Resolution} {d : Diagnostic}
      (hr : heritageTarget b.setting site notObject entry ⟨b.graph, []⟩ = .ok base? r)
      (hd : d ∈ r.diagnostics) : EntryFact b type site entry notObject kind (.reported d)
  | linked {base : SymbolId} {r : Resolution}
      (hr : heritageTarget b.setting site notObject entry ⟨b.graph, []⟩ = .ok (some base) r) :
      EntryFact b type site entry notObject kind (.edge (.given type) kind (.given base))

/-- What resolving the bases of a symbol adds. -/
inductive HeirFact (b : Start) (x : SymbolId) : Fact → Prop
  | side {inst : SymbolId} (hside : b.graph.hasEdge ⟨x, inst, .instanceType⟩) :
      HeirFact b x (.marked inst)
  | entry {type : SymbolId} {site : DeclSite} {entry : NodeRef} {notObject : Nat}
      {kind : EdgeKind} {f : Fact} (h : b.Entry x type site entry notObject kind)
      (hf : b.EntryFact type site entry notObject kind f) : HeirFact b x f

/-- What the work for a symbol adds, apart from what it asks for. An instance side has no work. -/
inductive Own (b : Start) (x : SymbolId) : Fact → Prop
  | marked (hk : b.graph.kind? x ≠ some .instanceType) : Own b x (.marked x)
  | pointed (ha : b.graph.kind? x = some .alias) :
      Own b x (.edge (.given x) .typedAs (.given (b.aliasValue x)))
  | reported {d : Diagnostic} (ha : b.graph.kind? x = some .alias) (hd : d ∈ b.aliasReports x) :
      Own b x (.reported d)
  | heir {f : Fact} (h : b.HeirFact x f) : Own b x f
  | made {f : Fact} (hk : b.graph.kind? x ≠ some .instanceType ∧ b.graph.kind? x ≠ some .alias)
      (hf : f ∈ b.made x) : Own b x f

variable {b : Start} {ds : List Diagnostic} {opened : List SymbolId} {s s' : Scene}
  {new : Set Fact} {x y z : SymbolId} {f : Fact}

theorem classOfInstance?_eq_some (h : b.graph.hasEdge ⟨x, y, .instanceType⟩) :
    b.graph.classOfInstance? y = some x := by
  have hmem : x ∈ b.graph.sources y .instanceType := b.sound.graph.mem_sources_iff.mpr h
  cases hsources : b.graph.sources y .instanceType with
  | nil => exact absurd (hsources ▸ hmem) List.not_mem_nil
  | cons z rest =>
      have hz : b.graph.hasEdge ⟨z, y, .instanceType⟩ :=
        b.sound.graph.mem_sources_iff.mp (hsources ▸ List.mem_cons_self)
      rw [classOfInstance?, firstSource, hsources, List.head?_cons, b.sides _ _ _ hz h]

theorem baseOwner_of_side (h : b.graph.hasEdge ⟨x, y, .instanceType⟩) : b.baseOwner y = x := by
  rw [baseOwner, classOfInstance?_eq_some h]
  rfl

theorem baseOwner_of_interface (h : b.graph.kind? x = some .interface) : b.baseOwner x = x := by
  rw [baseOwner]
  cases hc : b.graph.classOfInstance? x with
  | none => rfl
  | some y =>
      have he : b.graph.hasEdge ⟨y, x, .instanceType⟩ :=
        b.sound.graph.mem_sources_iff.mp (List.mem_of_head? hc)
      have hk := (b.sound.graph.isSide he).2.1
      rw [h] at hk
      simp at hk

/-- Only classes and interfaces have bases. -/
theorem Entry.kind? {site : DeclSite} {entry : NodeRef} {notObject : Nat} {kind : EdgeKind}
    (h : b.Entry x y site entry notObject kind) :
    b.graph.kind? x = some .classType ∨ b.graph.kind? x = some .interface := by
  cases h with
  | extended hx h =>
      cases h with
      | ofClass hside =>
          rw [← hx, baseOwner_of_side hside]
          exact .inl (b.sound.graph.isSide hside).1
      | ofInterface hk =>
          rw [← hx, baseOwner_of_interface hk]
          exact .inr hk
  | implemented hside => exact .inl (b.sound.graph.isSide hside).1

theorem HeirFact.kind? (h : b.HeirFact x f) :
    b.graph.kind? x = some .classType ∨ b.graph.kind? x = some .interface := by
  cases h with
  | side hside => exact .inl (b.sound.graph.isSide hside).1
  | entry h => exact h.kind?

namespace Own

theorem not_instanceType (h : b.Own x f) : b.graph.kind? x ≠ some .instanceType := by
  intro hk
  cases h with
  | marked hne => exact hne hk
  | pointed ha => simp [hk] at ha
  | reported ha => simp [hk] at ha
  | heir h => rcases h.kind? with h | h <;> simp [hk] at h
  | made hne => exact hne.1 hk

/-- Marks of its own are on the symbol itself, or on an instance side. -/
theorem of_marked (hx : x < b.size) (h : b.Own x (.marked z)) :
    z = x ∨ b.graph.kind? z = some .instanceType := by
  cases h with
  | marked => exact .inl rfl
  | heir h =>
      cases h with
      | side hside => exact .inr (b.sound.graph.isSide hside).2.1
      | entry _ hf => cases hf
  | made _ hf => cases (works_made hx).areTypeFacts _ hf

/-- Symbols of its own are made for the symbol itself. -/
theorem of_symbol (hx : x < b.size) {n : Nat} {label : Symbol}
    (h : b.Own x (.symbol (.made z n) label)) : z = x := by
  cases h with
  | heir h =>
      cases h with
      | entry _ hf => cases hf
  | made _ hf =>
      cases (works_made hx).areTypeFacts _ hf with
      | part => rfl

/-- A symbol is linked to the bases that its entries name. -/
theorem of_extends (hx : x < b.size) {o o' : Origin} (h : b.Own x (.edge o .extends o')) :
    ∃ type base, o = .given type ∧ o' = .given base ∧ b.setting.NamesBase b.graph type base := by
  cases h with
  | heir h =>
      cases h with
      | entry h hf =>
          cases hf with
          | linked hr =>
              cases h with
              | extended _ h => exact ⟨_, _, rfl, rfl, _, _, _, h, _, hr⟩
  | made _ hf =>
      cases (works_made hx).areTypeFacts _ hf with
      | edge _ _ hk => exact absurd rfl hk.1

end Own

theorem AliasFact.own (h : b.AliasFact f) : ∃ a < b.size, b.Own a f := by
  cases h with
  | marked ha => exact ⟨_, lt_size_of_kind? ha, .marked (by simp [ha])⟩
  | edge ha => exact ⟨_, lt_size_of_kind? ha, .pointed ha⟩

/-! ### Settled scenes -/

/-- The scene has the own facts of all symbols that are resolved and not open, and besides them only
what was given. -/
structure Settled (b : Start) (ds : List Diagnostic) (opened : List SymbolId) (s : Scene) :
    Prop where
  valid : b.Valid opened s
  clear : b.IsClear opened
  given : ∀ x ∈ opened, x < b.size
  keeps : ∀ {f}, b.Holds (b.scene ds) f → b.Holds s f
  finished : ∀ {x f}, x < b.size → s.graph.isResolved x → x ∉ opened → b.Own x f → b.Holds s f
  accounted : ∀ {f}, b.Holds s f → b.Holds (b.scene ds) f ∨ ∃ x < b.size, b.Own x f
  fresh : ∀ x ∈ opened, ∀ y < s.graph.size, ∀ n, s.origin y ≠ .made x n

/-- The second scene has what the first one has. -/
def Grows (b : Start) (s s' : Scene) : Prop := ∀ f, b.Holds s f → b.Holds s' f

theorem Grows.refl (b : Start) (s : Scene) : b.Grows s s := fun _ hf => hf

theorem Grows.trans {s'' : Scene} (h : b.Grows s s') (h' : b.Grows s' s'') : b.Grows s s'' :=
  fun f hf => h' f (h f hf)

theorem Leads.grows (h : b.Leads new s s') : b.Grows s s' := fun _ hf => h.keeps hf

theorem Grows.isResolved (h : b.Grows s s') (hx : x < b.size) (hr : s.graph.isResolved x) :
    s'.graph.isResolved x := (h (.marked x) ⟨hx, hr⟩).2

/-- The given symbols that are not resolved. -/
def pending (b : Start) (s : Scene) : Finset SymbolId :=
  (Finset.range b.size).filter fun x => ¬s.graph.isResolved x

theorem Grows.card_pending_le (h : b.Grows s s') : (b.pending s').card ≤ (b.pending s).card := by
  refine Finset.card_le_card fun x hx => ?_
  obtain ⟨hlt, hr⟩ := Finset.mem_filter.mp hx
  exact Finset.mem_filter.mpr ⟨hlt, fun hold => hr (h.isResolved (Finset.mem_range.mp hlt) hold)⟩

theorem card_pending_mark_lt (hx : x < b.size) (hlt : x < s.graph.size)
    (hr : ¬s.graph.isResolved x) : (b.pending (s.mark x)).card < (b.pending s).card := by
  have hgrows : b.Grows s (s.mark x) := (leads_mark b s hlt).grows
  refine Finset.card_lt_card ⟨fun y hy => ?_, fun hsub => ?_⟩
  · obtain ⟨hlt, hr⟩ := Finset.mem_filter.mp hy
    exact Finset.mem_filter.mpr
      ⟨hlt, fun hold => hr (hgrows.isResolved (Finset.mem_range.mp hlt) hold)⟩
  · have hmem := hsub (Finset.mem_filter.mpr ⟨Finset.mem_range.mpr hx, hr⟩)
    exact (Finset.mem_filter.mp hmem).2 ((isResolved_mark s hlt).mpr (.inr rfl))

/-- An alias that is resolved has its own facts. -/
theorem Valid.holds_of_alias (h : b.Valid opened s) (ha : b.graph.kind? x = some .alias)
    (hr : s.graph.isResolved x) (hclosed : x ∉ opened) (hf : b.Own x f) : b.Holds s f := by
  have hx : x < b.size := lt_size_of_kind? ha
  obtain ⟨htargets, hreports⟩ := h.aliased ha hr hclosed
  cases hf with
  | marked => exact ⟨hx, hr⟩
  | pointed =>
      have hmem : b.aliasValue x ∈ s.graph.targets x .typedAs := by
        rw [htargets]
        exact List.mem_cons_self
      have hvalue : b.aliasValue x < b.size := (b.aliasSettles ha).usable.lt_size
      exact ⟨x, _, h.given hx, h.given hvalue, h.wellFormed.mem_targets_iff.mp hmem⟩
  | reported _ hd => exact hreports hd
  | heir hf => rcases hf.kind? with hk | hk <;> simp [ha] at hk
  | made hk => exact absurd ha hk.2

namespace Settled

/-- One more step for a symbol. What is open may change only there. -/
theorem step {opened' : List SymbolId} (h : b.Settled ds opened s) (hs' : b.Valid opened' s')
    (hl : b.Leads new s s') (hx : x < b.size) (hnew : ∀ f ∈ new, b.Own x f)
    (hopened : ∀ y, y ≠ x → (y ∈ opened' ↔ y ∈ opened))
    (hclosed : x ∉ opened' → s'.graph.isResolved x → ∀ f, b.Own x f → b.Holds s' f)
    (hopen : x ∈ opened' → b.graph.kind? x ≠ some .alias ∧
      ∀ y < s'.graph.size, ∀ n, s'.origin y ≠ .made x n) : b.Settled ds opened' s' where
  valid := hs'
  clear y hy := by
    by_cases hyx : y = x
    · subst hyx
      exact (hopen hy).1
    · exact h.clear y ((hopened y hyx).mp hy)
  given y hy := by
    by_cases hyx : y = x
    · exact hyx ▸ hx
    · exact h.given y ((hopened y hyx).mp hy)
  keeps hf := hl.keeps (h.keeps hf)
  finished {y f} hy hr hn hf := by
    by_cases hyx : y = x
    · subst hyx
      exact hclosed hn hr f hf
    · have hold : y ∉ opened := fun hmem => hn ((hopened y hyx).mpr hmem)
      rcases hl.only (f := .marked y) ⟨hy, hr⟩ with hm | hm | hm
      · exact hl.keeps (h.finished hy hm.2 hold hf)
      · rcases (hnew _ hm).of_marked hx with rfl | hk
        · exact absurd rfl hyx
        · exact absurd hk hf.not_instanceType
      · cases hm with
        | marked ha => exact hs'.holds_of_alias ha hr hn hf
  accounted hf := by
    rcases hl.only hf with hf | hf | hf
    · exact h.accounted hf
    · exact .inr ⟨x, hx, hnew _ hf⟩
    · exact .inr hf.own
  fresh y hy := by
    by_cases hyx : y = x
    · subst hyx
      exact (hopen hy).2
    intro z hz n
    refine hl.not_made hs' (fun w hw => h.fresh y ((hopened y hyx).mp hy) w hw n)
      (fun label hf => ?_) z hz
    exact hyx ((hnew _ hf).of_symbol hx)

/-- Facts of a symbol whose work goes on. -/
theorem advance (h : b.Settled ds opened s) (hs' : b.Valid opened s') (hl : b.Leads new s s')
    (hx : x ∈ opened) (hnew : ∀ f ∈ new, b.Own x f)
    (hplain : ∀ n label, .symbol (.made x n) label ∉ new) : b.Settled ds opened s' := by
  refine h.step hs' hl (h.given x hx) hnew (fun _ _ => Iff.rfl) (fun hn => absurd hx hn)
    fun _ => ⟨h.clear x hx, fun y hy n => ?_⟩
  exact hl.not_made hs' (fun z hz => h.fresh x hx z hz n) (hplain n) y hy

/-- The work for a symbol begins. -/
theorem «begin» (h : b.Settled ds opened s) (hx : x < b.size)
    (hk : b.graph.kind? x ≠ some .alias ∧ b.graph.kind? x ≠ some .instanceType)
    (hr : ¬s.graph.isResolved x) : x ∉ opened ∧ b.Settled ds (x :: opened) (s.mark x) := by
  have hlt : x < s.graph.size := h.valid.lt_size hx
  have hclosed : x ∉ opened := fun hmem => hr ((h.valid.opened_lt x hmem).2 hx)
  have hmarked : b.Valid (x :: opened) (s.mark x) := by
    refine h.valid.mark hlt (List.subset_cons_self x opened) (fun y hy => ?_)
      (fun _ => .inr ⟨hx, hr⟩) fun _ => .inl List.mem_cons_self
    exact (List.mem_cons.mp hy).symm
  refine ⟨hclosed, h.step hmarked (leads_mark b s hlt) hx ?_ (fun y hyx => ?_)
    (fun hn => absurd List.mem_cons_self hn) fun _ => ⟨hk.1, fun y hy n ho => ?_⟩⟩
  · rintro f ⟨-, rfl⟩
    exact .marked hk.2
  · exact ⟨fun hy => (List.mem_cons.mp hy).resolve_left hyx, List.mem_cons_of_mem x⟩
  · rw [Scene.graph_mark, size_setResolved] at hy
    exact hr (h.valid.owned hy ho)

/-- The work for a symbol ends, with its bases linked before. -/
theorem finish (h : b.Settled ds (x :: opened) s) (hclosed : x ∉ opened)
    (hk : b.graph.kind? x ≠ some .instanceType) (hheir : ∀ f, b.HeirFact x f → b.Holds s f) :
    ∃ s', s.Runs (b.work x) () s' ∧ b.Settled ds opened s' ∧ b.Grows s s' := by
  have hmem : x ∈ x :: opened := List.mem_cons_self
  have hx : x < b.size := h.given x hmem
  have hr : s.graph.isResolved x := (h.valid.opened_lt x hmem).2 hx
  obtain ⟨s', hruns, hs', hl⟩ := (works_made hx).runs
    ⟨h.valid, h.clear, hx, hr, fun y hy m _ => h.fresh x hmem y hy m⟩ hclosed
  have halias : b.graph.kind? x ≠ some .alias := h.clear x hmem
  refine ⟨s', hruns, h.step hs' hl hx (fun f hf => .made ⟨hk, halias⟩ hf) (fun y hyx => ?_)
    (fun _ _ f hf => ?_) (fun hn => absurd hn hclosed), hl.grows⟩
  · exact ⟨List.mem_cons_of_mem x, fun hy => (List.mem_cons.mp hy).resolve_left hyx⟩
  · cases hf with
    | marked => exact ⟨hx, hl.isResolved hx hr⟩
    | pointed ha => exact absurd ha halias
    | reported ha => exact absurd ha halias
    | heir hf => exact hl.keeps (hheir f hf)
    | made _ hf => exact hl.adds hf

end Settled

end Start

end NameBinding
