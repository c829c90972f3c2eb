import Mathlib.Data.Set.Insert
import NameBinding.Proofs.Resolve.Aliases

/-! # Making symbols for a type

What is made for the type of a symbol is numbered in the order in which it is made. The numbers do
not depend on what was resolved before. -/

namespace NameBinding

open SymbolGraph ResolveM

namespace Start

variable {b : Start} {s s' : Scene} {opened : List SymbolId} {owner x y : SymbolId} {n : Nat}
  {o o' : Origin} {label label' : Symbol} {new : Set Fact}

/-- A symbol that was not there is among the new facts. -/
theorem Leads.not_made (hl : b.Leads new s s') (hs' : b.Valid opened s')
    (hold : ∀ y < s.graph.size, s.origin y ≠ .made owner n)
    (hnew : ∀ label, .symbol (.made owner n) label ∉ new) :
    ∀ y < s'.graph.size, s'.origin y ≠ .made owner n := by
  intro y hy ho
  obtain ⟨label, hlabel⟩ :=
    Option.isSome_iff_exists.mp ((isSome_label? s'.graph y).trans (decide_eq_true hy))
  have hle : b.size ≤ y := by
    refine Nat.le_of_not_lt fun hlt => ?_
    rw [hs'.given hlt] at ho
    simp at ho
  rcases hl.only (f := .symbol (.made owner n) label) ⟨y, hle, ho, hlabel⟩ with hf | hf | hf
  · obtain ⟨z, -, hz, hzlabel⟩ := hf
    refine hold z ?_ hz
    have hsome := isSome_label? s.graph z
    rw [hzlabel] at hsome
    simpa using hsome.symm
  · exact hnew label hf
  · cases hf

/-- Symbols can be made for the type of a symbol, from a number on. -/
structure Ready (b : Start) (owner : SymbolId) (n : Nat) (opened : List SymbolId) (s : Scene) :
    Prop where
  valid : b.Valid opened s
  clear : b.IsClear opened
  given : owner < b.size
  begun : s.graph.isResolved owner
  fresh : ∀ y < s.graph.size, ∀ m, n ≤ m → s.origin y ≠ .made owner m

namespace Ready

variable (h : b.Ready owner n opened s)

include h

theorem not_mem_opened : s.graph.size ∉ opened := fun hmem =>
  Nat.lt_irrefl _ (h.valid.opened_lt _ hmem).1

omit h in
theorem close (h : b.Ready owner n (x :: opened) s) : b.Ready owner n opened s where
  valid := h.valid.closes fun hk => absurd hk (h.clear x List.mem_cons_self)
  clear y hy := h.clear y (List.mem_cons_of_mem x hy)
  given := h.given
  begun := h.begun
  fresh := h.fresh

/-- The next symbol is made, and is open until it has its type. -/
theorem make {name : String} {kind : SymbolKind} {flags : Flags SymbolFlag}
    (hflags : flags.has .synthesized) (hplain : ¬flags.has .wellKnown) :
    b.Ready owner (n + 1) (s.graph.size :: opened) (s.make (.made owner n) name kind flags) := by
  have hmade : b.Valid opened (s.make (.made owner n) name kind flags) :=
    h.valid.make h.begun (fun y hy => h.fresh y hy n (Nat.le_refl n)) hflags hplain
  refine ⟨hmade.opens ?_ (fun hlt => ?_) ?_, ?_, h.given, ?_, ?_⟩
  · rw [graph_make, size_alloc]
    exact Nat.lt_succ_self _
  · exact absurd hlt (Nat.not_lt.mpr h.valid.size_le)
  · intro e he _ hsource
    rw [hasEdge_make] at he
    exact Nat.lt_irrefl _ (hsource ▸ (h.valid.wellFormed.lt_size he).1)
  · exact h.clear.cons fun hk =>
      absurd (lt_size_of_kind? hk) (Nat.not_lt.mpr h.valid.size_le)
  · rw [graph_make, isResolved_alloc]
    exact h.begun
  · intro y hy m hm
    rw [graph_make, size_alloc] at hy
    rcases Nat.lt_succ_iff_lt_or_eq.mp hy with hy | rfl
    · rw [origin_make_of_lt hy]
      exact h.fresh y hy m (Nat.le_of_succ_le hm)
    · rw [origin_make]
      rintro heq
      obtain ⟨-, rfl⟩ := Origin.made.inj heq
      exact Nat.lt_irrefl _ hm

/-- The step after a write that makes no symbol. -/
theorem rewrite {opened' : List SymbolId} (hs' : b.Valid opened' s') (hsub : opened' ⊆ opened)
    (hl : b.Leads new s s') (hsize : s'.graph.size = s.graph.size)
    (hbegun : s.graph.isResolved owner → s'.graph.isResolved owner) :
    b.Ready owner n opened' s' where
  valid := hs'
  clear y hy := h.clear y (hsub hy)
  given := h.given
  begun := hbegun h.begun
  fresh y hy m hm := by
    rw [hsize] at hy
    rw [hl.origin hy]
    exact h.fresh y hy m hm

theorem mark (hx : x < s.graph.size) (hmade : b.size ≤ x) :
    b.Ready owner n opened (s.mark x) ∧ b.Leads ∅ s (s.mark x) := by
  have hl : b.Leads ∅ s (s.mark x) := (leads_mark b s hx).congr fun f =>
    ⟨fun hf => absurd hf (by simp), fun hf => absurd hf.1 (Nat.not_lt.mpr hmade)⟩
  have hs' : b.Valid opened (s.mark x) := h.valid.mark hx (List.Subset.refl _) (fun _ hy => .inl hy)
    .inl fun hk => absurd (lt_size_of_kind? hk) (Nat.not_lt.mpr hmade)
  exact ⟨h.rewrite hs' (List.Subset.refl _) hl (size_setResolved s.graph x true) fun hr =>
    (isResolved_mark s hx).mpr (.inl hr), hl⟩

/-- A part is joined to a holder. -/
theorem link {kind : EdgeKind} (hk : kind.isPart) (hx : s.Places x o label)
    (hy : s.Places y o' label') (hxmade : b.size ≤ x) (hymade : b.size ≤ y)
    (hfree : ∀ z, ¬s.graph.IsAround z y) :
    b.Ready owner n opened (s.setGraph (s.graph.addEdge ⟨x, y, kind⟩)) ∧
      b.Leads (edgeFacts o kind o') s (s.setGraph (s.graph.addEdge ⟨x, y, kind⟩)) := by
  have hl : b.Leads (edgeFacts o kind o') s (s.setGraph (s.graph.addEdge ⟨x, y, kind⟩)) := by
    have hadd := leads_addEdge (e := ⟨x, y, kind⟩) hx.lt_size hy.lt_size b
    rwa [hx.origin, hy.origin] at hadd
  refine
    ⟨h.rewrite ?_ (List.Subset.refl _) hl (size_addEdge _ _) (isResolved_addEdge _ _ _).trans, hl⟩
  refine h.valid.link hx.lt_size hy.lt_size ?_ ?_ ⟨?_, ?_⟩ fun hbase => ?_
  · exact h.valid.resolves.change (.part _ hk hx.lt_size hy.lt_size hxmade hymade hfree)
  · rintro rfl
    simp [EdgeKind.isPart] at hk
  · rintro rfl
    simp [EdgeKind.isPart] at hk
  · rintro rfl
    simp [EdgeKind.isPart] at hk
  · rcases hbase with rfl | rfl <;> simp [EdgeKind.isPart] at hk

omit h in
/-- A part is given its type and is closed. -/
theorem type {kind : EdgeKind} (h : b.Ready owner n (x :: opened) s)
    (hk : kind = .typedAs ∨ kind = .returnType) (hclosed : x ∉ opened)
    (hx : s.Places x o label) (hy : s.Places y o' label') :
    s.Runs (setSingle x y kind) () (s.setGraph (s.graph.addEdge ⟨x, y, kind⟩)) ∧
      b.Ready owner n opened (s.setGraph (s.graph.addEdge ⟨x, y, kind⟩)) ∧
        b.Leads {.edge o kind o'} s (s.setGraph (s.graph.addEdge ⟨x, y, kind⟩)) := by
  have hresolution : kind.isResolution := by rcases hk with rfl | rfl <;> rfl
  have hne : kind ≠ .extends := by rcases hk with rfl | rfl <;> simp
  have hopen : x ∈ x :: opened := List.mem_cons_self
  have hl : b.Leads {.edge o kind o'} s (s.setGraph (s.graph.addEdge ⟨x, y, kind⟩)) := by
    have hadd := leads_addEdge (e := ⟨x, y, kind⟩) hx.lt_size hy.lt_size b
    rw [hx.origin, hy.origin] at hadd
    refine hadd.congr fun f => ⟨.inl, fun hf => hf.elim id fun hf => ?_⟩
    exact absurd hf.1 (EdgeKind.not_isMembership_of_isResolution hresolution)
  refine ⟨.setSingle hx.lt_size hy.lt_size ?_, h.rewrite ?_ (List.subset_cons_self x opened) hl
    (size_addEdge _ _) (isResolved_addEdge _ _ _).trans, hl⟩
  · refine List.eq_nil_iff_forall_not_mem.mpr fun z hz => ?_
    exact (h.valid.typed (h.valid.wellFormed.mem_targets_iff.mp hz) hk).1 hopen
  · refine h.valid.type hx.lt_size hy.lt_size ?_ hk rfl hclosed fun halias => ?_
    · exact h.valid.resolves.change
        (.point _ hresolution hx.lt_size hy.lt_size fun he => absurd he hne)
    · exact absurd halias (h.clear x hopen)

/-- The step after one that makes no symbol for the type. -/
theorem advance (hs' : b.Valid opened s') (hl : b.Leads new s s')
    (hnew : ∀ m label, .symbol (.made owner m) label ∉ new) : b.Ready owner n opened s' where
  valid := hs'
  clear := h.clear
  given := h.given
  begun := hl.isResolved h.given h.begun
  fresh y hy m hm := hl.not_made hs' (fun z hz => h.fresh z hz m hm) (hnew m) y hy

/-- The array type of a symbol is found or made. -/
theorem arrayOf (hx : s.Places x o label) : ∃ y s', s.Runs (ResolveM.arrayOf x) y s' ∧
    b.Ready owner n opened s' ∧ b.Leads {.symbol (.array o) (.arrayType label.name),
      .edge (.array o) .arrayOf o} s s' ∧ s'.Places y (.array o) (.arrayType label.name) := by
  have hname : s.graph.name x = label.name := hx.name
  cases hnone : s.graph.arrayTypes x with
  | nil =>
      have hs' := h.valid.makeArray hx.lt_size hnone
      have hl := leads_makeArray h.valid hx.lt_size
      rw [hx.origin, hname] at hl
      have hready := h.advance hs' hl fun m label => by simp
      have harray := places_makeArray s x
      rw [hx.origin, hname] at harray
      obtain ⟨hmark, hlmark⟩ := hready.mark harray.lt_size h.valid.size_le
      refine ⟨s.graph.size, _, .graph_bind ?_, hmark, (hl.trans hlmark).congr fun f => ?_,
        hlmark.places harray⟩
      · rw [hnone]
        refine (Scene.Runs.alloc s (.array (s.origin x)) _ _ _).bind (.bind (.link ?_ ?_)
          ((Scene.Runs.markResolved _ _).bind (.pure _ _)))
        · exact places_make.lt_size
        · exact Nat.lt_trans hx.lt_size (lt_size_alloc _ _ _ _)
      · exact ⟨.inl, fun hf => hf.elim id fun hf => absurd hf (Set.notMem_empty f)⟩
  | cons y rest =>
      have hedge : s.graph.hasEdge ⟨y, x, .arrayOf⟩ := by
        refine h.valid.wellFormed.mem_sources_iff.mp ?_
        change y ∈ s.graph.arrayTypes x
        rw [hnone]
        exact List.mem_cons_self
      have hsingle : rest = [] := by
        have hsound := h.valid.resolves.sound b.sound.graph
        have hlength : (s.graph.arrayTypes x).length ≤ 1 :=
          hsound.arrays.length_sources_le hsound.toMirrored x
        rw [hnone] at hlength
        simpa using hlength
      obtain ⟨hy, -⟩ := h.valid.wellFormed.lt_size hedge
      have hlabel := h.valid.arrayLabel hedge
      have ho : s.origin y = .array o := hx.origin ▸ (h.valid.array hy hx.lt_size).mp hedge
      rw [hname] at hlabel
      refine ⟨y, s, .graph_bind ?_, h, .refl ?_, hy, ho, hlabel⟩
      · rw [hnone, hsingle]
        exact .pure s y
      · rintro f (rfl | rfl)
        · refine ⟨y, Nat.le_of_not_lt fun hlt => ?_, ho, hlabel⟩
          rw [h.valid.given hlt] at ho
          simp at ho
        · exact ⟨y, x, ho, hx.origin, hedge⟩

end Ready

/-! ### Steps that make symbols -/

/-- What can be added when a type is made for a symbol. -/
inductive IsTypeFact (owner : SymbolId) : Fact → Prop
  | part (n : Nat) (label : Symbol) : IsTypeFact owner (.symbol (.made owner n) label)
  | array (o : Origin) (label : Symbol) : IsTypeFact owner (.symbol (.array o) label)
  | edge (o : Origin) {kind : EdgeKind} (o' : Origin) (hk : kind ≠ .extends ∧ kind ≠ .implements) :
      IsTypeFact owner (.edge o kind o')
  | reported (d : Diagnostic) : IsTypeFact owner (.reported d)

/-- All of the facts can be added when a type is made for a symbol. -/
def AreTypeFacts (owner : SymbolId) (new : Set Fact) : Prop := ∀ f ∈ new, IsTypeFact owner f

namespace AreTypeFacts

theorem empty : AreTypeFacts owner ∅ := fun _ hf => absurd hf (Set.notMem_empty _)

theorem union {new' : Set Fact} (h : AreTypeFacts owner new) (h' : AreTypeFacts owner new') :
    AreTypeFacts owner (new ∪ new') := fun f hf => hf.elim (h f) (h' f)

theorem part (n : Nat) (label : Symbol) : AreTypeFacts owner {.symbol (.made owner n) label} := by
  rintro _ rfl
  exact .part n label

theorem edge (o o' : Origin) {kind : EdgeKind} (hk : kind ≠ .extends ∧ kind ≠ .implements) :
    AreTypeFacts owner {.edge o kind o'} := by
  rintro _ rfl
  exact .edge o o' hk

theorem edgeFacts (o o' : Origin) {kind : EdgeKind} (hk : kind.isPart) :
    AreTypeFacts owner (edgeFacts o kind o') := by
  rintro f (rfl | ⟨-, rfl⟩)
  · refine .edge o o' ⟨?_, ?_⟩ <;> rintro rfl <;> simp [EdgeKind.isPart] at hk
  · exact .edge o' o (by simp)

theorem array (o : Origin) (label : Symbol) :
    AreTypeFacts owner {.symbol (.array o) label, .edge (.array o) .arrayOf o} := by
  rintro f (rfl | rfl)
  · exact .array o label
  · exact .edge (.array o) o (by simp)

theorem reports (ds : List Diagnostic) : AreTypeFacts owner (reports ds) := by
  rintro _ ⟨d, -, rfl⟩
  exact .reported d

end AreTypeFacts

/-- Whatever was resolved before, the step makes the same symbols and answers with the same one. -/
def Makes (b : Start) (owner : SymbolId) (m : ResolveM SymbolId)
    (Q : Origin → Prop := fun _ => True) : Prop :=
  ∀ n, ∃ o label n' new, Q o ∧ AreTypeFacts owner new ∧ ∀ {opened s}, b.Ready owner n opened s →
    ∃ x s', s.Runs m x s' ∧ b.Ready owner n' opened s' ∧ b.Leads new s s' ∧ s'.Places x o label

/-- The origin of a symbol that is made for the type of a symbol. -/
def IsMadeFor (owner : SymbolId) (o : Origin) : Prop := ∃ n, o = .made owner n

/-- What was made was not given. -/
theorem Valid.size_le_of_isMadeFor (h : b.Valid opened s) (ho : IsMadeFor owner (s.origin x)) :
    b.size ≤ x := by
  refine Nat.le_of_not_lt fun hlt => ?_
  obtain ⟨n, ho⟩ := ho
  rw [h.given hlt] at ho
  simp at ho

/-- A step that answers with a given symbol makes nothing. -/
theorem Makes.of_determines {m : ResolveM SymbolId} (h : b.Determines m (· < b.size)) :
    b.Makes owner m := by
  obtain ⟨x, ds, hx, h⟩ := h
  obtain ⟨label, hlabel⟩ :=
    Option.isSome_iff_exists.mp ((isSome_label? b.graph x).trans (decide_eq_true hx))
  refine fun n => ⟨.given x, label, n, reports ds, True.intro, .reports ds, fun {opened s} hs => ?_⟩
  obtain ⟨s', hr, hs', hl⟩ := h ⟨opened, hs.clear⟩ s hs.valid
  refine ⟨x, s', hr, hs.advance hs' hl ?_, hl, hs'.lt_size hx, hs'.given hx, ?_⟩
  · rintro m label ⟨d, -, hf⟩
    cases hf
  · exact (hs'.resolves.label? hx).trans hlabel

theorem Makes.pure (hx : x < b.size) : b.Makes owner (Pure.pure x) :=
  .of_determines (.pure hx)

/-- A step that reads of the graph only what is the same at all times. -/
theorem Makes.graph_bind {f : SymbolGraph → ResolveM SymbolId}
    (hread : ∀ opened s, b.Valid opened s → f s.graph = f b.graph) (h : b.Makes owner (f b.graph)) :
    b.Makes owner (ResolveM.graph >>= f) := by
  intro n
  obtain ⟨o, label, n', new, hQ, hnew, h⟩ := h n
  refine ⟨o, label, n', new, hQ, hnew, fun {opened s} hs => ?_⟩
  obtain ⟨x, s', hr, h⟩ := h hs
  exact ⟨x, s', .graph_bind ((hread opened s hs.valid).symm ▸ hr), h⟩

/-- A step in every scene with a property adds the same facts and leads to one with another
property. -/
def Adds {ι : Type} (b : Start) (owner : SymbolId) (P P' : ι → Scene → Prop)
    (m : ι → ResolveM Unit) : Prop :=
  ∃ new, AreTypeFacts owner new ∧
    ∀ i s, P i s → ∃ s', s.Runs (m i) () s' ∧ P' i s' ∧ b.Leads new s s'

theorem adds_pure {ι : Type} (P : ι → Scene → Prop) :
    b.Adds owner P P fun _ => (Pure.pure () : ResolveM Unit) :=
  ⟨∅, .empty, fun _ s hs => ⟨s, .pure s (), hs, .refl fun _ hf => absurd hf (Set.notMem_empty _)⟩⟩

/-- Steps for the elements of a list, each of which goes from one stage to another. -/
theorem exists_adds_forM {ι α σ : Type} {P : σ → ι → Scene → Prop} {f : ι → α → ResolveM Unit}
    (as : List α)
    (h : ∀ a ∈ as, ∀ stage, ∃ stage', b.Adds owner (P stage) (P stage') fun i => f i a)
    (stage : σ) : ∃ stage', b.Adds owner (P stage) (P stage') fun i => as.forM (f i) := by
  induction as generalizing stage with
  | nil => exact ⟨stage, adds_pure (P stage)⟩
  | cons a as ih =>
      obtain ⟨next, new, hnew, hfirst⟩ := h a List.mem_cons_self stage
      obtain ⟨last, new', hnew', hrest⟩ := ih (fun a ha => h a (List.mem_cons_of_mem _ ha)) next
      refine ⟨last, new ∪ new', hnew.union hnew', fun i s hs => ?_⟩
      obtain ⟨s', hr, hs', hl⟩ := hfirst i s hs
      obtain ⟨s'', hr', hs'', hl'⟩ := hrest i s' hs'
      exact ⟨s'', hr.bind hr', hs'', hl.trans hl'⟩

/-- A part gets the type that a step makes. -/
theorem Makes.typesPart {m : ResolveM SymbolId} (hm : b.Makes owner m) (n : Nat) (o : Origin)
    {kind : EdgeKind} (hk : kind = .typedAs ∨ kind = .returnType) :
    ∃ n' new, AreTypeFacts owner new ∧ ∀ {opened s x label}, b.Ready owner n (x :: opened) s →
      x ∉ opened → s.Places x o label → ∃ y s₁ s₂, s.Runs m y s₁ ∧
        s₁.Runs (setSingle x y kind) () s₂ ∧ b.Ready owner n' opened s₂ ∧ b.Leads new s s₂ := by
  obtain ⟨o', label', n', new, -, hnew, h⟩ := hm n
  have hne : kind ≠ .extends ∧ kind ≠ .implements := by rcases hk with rfl | rfl <;> simp
  refine ⟨n', new ∪ {.edge o kind o'}, hnew.union (.edge o o' hne),
    fun {opened s x label} hs hclosed hx => ?_⟩
  obtain ⟨y, s₁, hr, hs₁, hl, hy⟩ := h hs
  obtain ⟨hr', hs₂, hl'⟩ := hs₁.type hk hclosed (hl.places hx) hy
  exact ⟨y, s₁, _, hr, hr', hs₂, hl.trans hl'⟩

end Start

end NameBinding
