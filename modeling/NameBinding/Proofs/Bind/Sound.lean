import NameBinding.Binding
import NameBinding.Proofs.Graph.Sound
import NameBinding.Proofs.Graph.Steps
import NameBinding.Proofs.Program.WellFormed

/-! # Sound programs, and steps of binding that keep them so

Symbols list declarations that exist, and a bound declaration is listed by its symbol. Binding takes
nothing away: what a step finds is still there for the steps after it. -/

namespace NameBinding

open SymbolGraph

/-- Flags of symbols that are neither there from the start nor made for a type. -/
def Flags.AreDeclarable (flags : Flags SymbolFlag) : Prop :=
  ¬flags.has .synthesized ∧ ¬flags.has .wellKnown

instance (flags : Flags SymbolFlag) : Decidable flags.AreDeclarable :=
  inferInstanceAs (Decidable (_ ∧ _))

namespace SymbolGraph

variable {g : SymbolGraph}

/-- A declaration can be listed on a symbol. On a class it is listed after the instance side. -/
structure Takes (g : SymbolGraph) (id : SymbolId) (d : DeclId) : Prop where
  lt_size : id < g.size
  declarable : g.IsDeclarable id
  side : g.kind? id = some .classType →
    ∃ inst, g.hasEdge ⟨id, inst, .instanceType⟩ ∧ d ∈ g.declarations inst

theorem takes_of_kind {id : SymbolId} {kind : SymbolKind} (hk : g.kind? id = some kind)
    (hclass : kind ≠ .classType) (hdecl : g.IsDeclarable id) (d : DeclId) : g.Takes id d where
  lt_size := lt_size_of_kind? hk
  declarable := hdecl
  side h := absurd (Option.some.inj (hk.symm.trans h)) hclass

end SymbolGraph

namespace Binding

/-- Declarations and symbols refer to each other. -/
structure Sound (b : Binding) : Prop where
  program : b.program.WellFormed
  graph : b.graph.Sound
  known : ∀ {id : SymbolId} {d : DeclId}, d ∈ b.graph.declarations id → (b.program.decl? d).isSome
  listed : ∀ {d : DeclId} {x : Decl} {symbol : SymbolId}, b.program.decl? d = some x →
    x.symbol = some symbol → d ∈ b.graph.declarations symbol

/-- The second binding has all that the first one has. -/
structure Grows (b b' : Binding) : Prop where
  kind : ∀ {id : SymbolId}, id < b.graph.size → b'.graph.kind? id = b.graph.kind? id
  has : ∀ {id : SymbolId} (f : SymbolFlag), id < b.graph.size → b'.graph.has id f = b.graph.has id f
  edge : ∀ {e : Edge}, b.graph.hasEdge e → b'.graph.hasEdge e
  declarations : ∀ id, b.graph.declarations id ⊆ b'.graph.declarations id
  known : ∀ {d : DeclId}, (b.program.decl? d).isSome → (b'.program.decl? d).isSome
  /-- Binding resolves nothing. -/
  marked : ∀ {id : SymbolId}, b'.graph.isResolved id → b.graph.isResolved id

variable {b b' b'' : Binding}

namespace Grows

theorem refl (b : Binding) : b.Grows b :=
  ⟨fun _ => rfl, fun _ _ => rfl, fun h => h, fun _ => List.Subset.refl _, fun h => h, fun h => h⟩

theorem size_le (h : b.Grows b') : b.graph.size ≤ b'.graph.size := by
  by_contra hn
  have hlt : b'.graph.size < b.graph.size := Nat.lt_of_not_le hn
  have hk := h.kind hlt
  obtain ⟨s, hs⟩ := Option.isSome_iff_exists.mp ((isSome_get? b.graph b'.graph.size).trans
    (decide_eq_true hlt))
  simp [kind?, hs, (get?_eq_none_iff b'.graph b'.graph.size).mpr (Nat.le_refl _)] at hk

theorem trans (h : b.Grows b') (h' : b'.Grows b'') : b.Grows b'' where
  kind hid := (h'.kind (Nat.lt_of_lt_of_le hid h.size_le)).trans (h.kind hid)
  has f hid := (h'.has f (Nat.lt_of_lt_of_le hid h.size_le)).trans (h.has f hid)
  edge he := h'.edge (h.edge he)
  declarations id := List.Subset.trans (h.declarations id) (h'.declarations id)
  known hd := h'.known (h.known hd)
  marked hm := h.marked (h'.marked hm)

theorem takes (h : b.Grows b') {id : SymbolId} {d : DeclId} (ht : b.graph.Takes id d) :
    b'.graph.Takes id d where
  lt_size := Nat.lt_of_lt_of_le ht.lt_size h.size_le
  declarable := by
    rw [IsDeclarable, h.has .synthesized ht.lt_size, h.has .wellKnown ht.lt_size]
    exact ht.declarable
  side hk := by
    rw [h.kind ht.lt_size] at hk
    obtain ⟨inst, he, hd⟩ := ht.side hk
    exact ⟨inst, h.edge he, h.declarations inst hd⟩

/-- A change of the graph that keeps labels and edges. -/
theorem of_labels {g : SymbolGraph}
    (hlabel : ∀ id, id < b.graph.size → g.label? id = b.graph.label? id)
    (hedge : ∀ {e}, b.graph.hasEdge e → g.hasEdge e)
    (hmark : ∀ id, g.isResolved id = b.graph.isResolved id) : b.Grows ⟨g, b.program⟩ where
  kind hid := kind?_congr (hlabel _ hid)
  has f hid := has_congr (hlabel _ hid) f
  edge := hedge
  declarations id d hd := by
    rw [declarations_congr (hlabel id (lt_size_of_mem_declarations hd))]
    exact hd
  known hd := hd
  marked hm := (hmark _).symm.trans hm

end Grows

/-- A change of the graph alone, without one of the declarations that are listed. -/
theorem Sound.setGraph (h : b.Sound) {g : SymbolGraph} (hg : g.Sound)
    (hd : ∀ id, g.declarations id = b.graph.declarations id) : Sound ⟨g, b.program⟩ where
  program := h.program
  graph := hg
  known {id d} hm := h.known (hd id ▸ hm)
  listed {d x symbol} hx hs := by
    rw [hd]
    exact h.listed hx hs

/-! ### Units come and go -/

/-- A new unit has no bound declaration yet, and no symbol lists one of it. -/
theorem Sound.addUnit (h : b.Sound) {u : CompilationUnit} (hid : u.id = b.program.nextUnit)
    (hpath : u.path ∉ b.program.paths) (hnum : u.Numbered) (hunbound : u.Unbound) : Sound
      ⟨b.graph, Program.add { b.program with nextUnit := b.program.nextUnit + 1 } u⟩ where
  program := h.program.add hid hpath hnum
  graph := h.graph
  known {id d} hd := by
    obtain ⟨x, hx⟩ := Option.isSome_iff_exists.mp (h.known hd)
    exact Option.isSome_iff_exists.mpr ⟨x, (h.program.decl?_add_iff hid hpath hnum).mpr (.inl hx)⟩
  listed {d x symbol} hx hs := by
    rcases (h.program.decl?_add_iff hid hpath hnum).mp hx with hx | hx
    · exact h.listed hx hs
    · rw [hunbound _ x (CompilationUnit.decl?_eq_some hx).2] at hs
      exact absurd hs (by simp)

/-- The declarations of a unit are forgotten together with the unit. -/
theorem Sound.removeUnit (h : b.Sound) {u : CompilationUnit} (hu : u ∈ b.program.units) :
    Sound ⟨b.graph.forgetUnit u.id, b.program.remove u.path⟩ where
  program := h.program.remove u.path
  graph := h.graph.forgetUnit u.id
  known {id d} hd := by
    simp only [declarations_forgetUnit, List.mem_filter, bne_iff_ne] at hd
    obtain ⟨x, hx⟩ := Option.isSome_iff_exists.mp (h.known hd.1)
    exact Option.isSome_iff_exists.mpr ⟨x, (h.program.decl?_remove_iff hu).mpr ⟨hx, hd.2⟩⟩
  listed {d x symbol} hx hs := by
    obtain ⟨hx, hd⟩ := (h.program.decl?_remove_iff hu).mp hx
    simp only [declarations_forgetUnit, List.mem_filter, bne_iff_ne]
    exact ⟨h.listed hx hs, hd⟩

/-! ### Steps -/

/-- From a binding a step keeps it sound, takes nothing away, and answers as stated. -/
def Binds {α : Type} (b : Binding) (m : BindM α) (post : α → Binding → Prop := fun _ _ => True) :
    Prop :=
  Contract (· = b) m (fun a b' => b'.Sound ∧ b.Grows b' ∧ post a b') Sound

namespace Binds

variable {α β : Type} {m : BindM α} {post Q : α → Binding → Prop}

protected theorem weaken {post' : α → Binding → Prop} (h : b.Binds m post)
    (hpost : ∀ a b', post a b' → post' a b') : b.Binds m post' :=
  Contract.weaken h (fun _ hb => hb) (fun a b' hb => ⟨hb.1, hb.2.1, hpost a b' hb.2.2⟩)
    fun _ hb => hb

protected theorem pure {a : α} (hb : b.Sound) (h : post a b) : b.Binds (pure a) post := by
  rintro _ rfl
  exact ⟨hb, .refl _, h⟩

protected theorem throw (e : BindError) (hb : b.Sound) : b.Binds (throw e) post :=
  Contract.throw e fun _ hs => hs ▸ hb

protected theorem bind {f : α → BindM β} {post : β → Binding → Prop} (hm : b.Binds m Q)
    (hf : ∀ a b', b'.Sound → b.Grows b' → Q a b' → b'.Binds (f a) post) :
    b.Binds (m >>= f) post := by
  refine Contract.bind hm fun a b₁ ⟨hb₁, hg, hq⟩ => ?_
  have h := hf a b₁ hb₁ hg hq b₁ rfl
  split at h
  · exact ⟨h.1, hg.trans h.2.1, h.2.2⟩
  · exact h

protected theorem get_bind {f : Binding → BindM α} (h : b.Binds (f b) post) :
    b.Binds (get >>= f) post :=
  Contract.get_bind fun _ hs => hs ▸ h

protected theorem graph_bind {f : SymbolGraph → BindM α} (h : b.Binds (f b.graph) post) :
    b.Binds (BindM.graph >>= f) post := by
  intro s hs
  exact hs ▸ h b rfl

protected theorem modify {f : Binding → Binding} (hb : (f b).Sound) (hg : b.Grows (f b)) :
    b.Binds (modify f : BindM PUnit) := by
  rintro _ rfl
  exact ⟨hb, hg, True.intro⟩

/-- A step on the graph. -/
protected theorem onGraph {step : GraphM α} (h : Contract (· = b.graph) step
      (fun a g => Sound ⟨g, b.program⟩ ∧ b.Grows ⟨g, b.program⟩ ∧ post a ⟨g, b.program⟩)
      (fun g => Sound ⟨g, b.program⟩)) : b.Binds (BindM.onGraph step) post := by
  rintro s rfl
  have hstep := h s.graph rfl
  unfold BindM.onGraph
  cases hs : step s.graph <;> simpa [hs] using hstep

protected theorem forM {f : α → BindM PUnit} (as : List α) (hb : b.Sound)
    (h : ∀ a ∈ as, ∀ b', b'.Sound → b.Grows b' → b'.Binds (f a)) : b.Binds (as.forM f) := by
  induction as generalizing b with
  | nil => exact Binds.pure hb True.intro
  | cons a as ih =>
      refine (h a List.mem_cons_self b hb (.refl b)).bind fun _ b₁ hb₁ hg _ => ih hb₁ ?_
      intro x hx b₂ hb₂ hg₂
      exact h x (List.mem_cons_of_mem a hx) b₂ hb₂ (hg.trans hg₂)

protected theorem foldlM {f : β → α → BindM β} (as : List α) (init : β) (hb : b.Sound)
    (h : ∀ x, ∀ a ∈ as, ∀ b', b'.Sound → b.Grows b' → b'.Binds (f x a)) :
    b.Binds (as.foldlM f init) := by
  induction as generalizing b init with
  | nil => exact Binds.pure hb True.intro
  | cons a as ih =>
      rw [List.foldlM_cons]
      refine (h init a List.mem_cons_self b hb (.refl b)).bind fun x b₁ hb₁ hg _ => ih x hb₁ ?_
      intro y c hc b₂ hb₂ hg₂
      exact h y c (List.mem_cons_of_mem a hc) b₂ hb₂ (hg.trans hg₂)

end Binds

end Binding

end NameBinding
