import Mathlib.Logic.Relation
import NameBinding.Graph.Members
import NameBinding.Proofs.Graph.Sound
import NameBinding.Resolve.Basic

/-! # What resolving writes

Resolving marks symbols, points resolution edges anew and makes symbols of its own. All that it does
to a graph is a sequence of these changes, so what each change keeps is kept by every request. -/

namespace NameBinding

namespace EdgeKind

/-- Edges between the parts of a synthesized type. -/
def isPart : EdgeKind → Bool
  | .publicProperty | .parameter | .callSignature | .constructSignature | .indexSignature => true
  | _ => false

/-- The only edge between two symbols can be of the kind. -/
def isSole : EdgeKind → Bool
  | .instanceType | .parameter => true
  | kind => kind.isSignature

theorem isSole_of_isSignature {kind : EdgeKind} (h : kind.isSignature) : kind.isSole := by
  cases kind <;> simp_all [isSole, isSignature]

theorem isStructural_of_isSole {kind : EdgeKind} (h : kind.isSole) : kind.isStructural := by
  cases kind <;> simp_all [isSole, isStructural, isSignature, isResolution]

theorem not_isResolution_of_isSole {kind : EdgeKind} (h : kind.isSole) : ¬kind.isResolution := by
  cases kind <;> simp_all [isSole, isSignature, isResolution]

theorem isPart_of_isSignature {kind : EdgeKind} (h : kind.isSignature) : kind.isPart := by
  cases kind <;> simp_all [isSignature, isPart]

theorem not_isMembership_of_isResolution {kind : EdgeKind} (h : kind.isResolution) :
    ¬kind.isMembership := by
  cases kind <;> simp_all [isResolution, isMembership]

theorem ne_containedBy_of_isResolution {kind : EdgeKind} (h : kind.isResolution) :
    kind ≠ .containedBy := by
  rintro rfl
  simp [isResolution] at h

end EdgeKind

namespace Setting

/-- The declaration is one of an interface. -/
def DeclaresInterface (setting : Setting) (d : DeclId) : Prop :=
  ∃ u decl, setting.program.unitById? d.unit = some u ∧ u.decl? d = some decl ∧
    ∃ i, u.tree.interfaceDecl? decl.node = some i

/-- The symbol is the instance side of a class or is declared as an interface. -/
def IsHeir (setting : Setting) (g : SymbolGraph) (x : SymbolId) : Prop :=
  (∃ cls, g.hasEdge ⟨cls, x, .instanceType⟩) ∨
    ∃ d ∈ g.declarations x, setting.DeclaresInterface d

/-- What is known when a base is linked: it does not lead back to its heir. -/
structure LinksBase (setting : Setting) (g : SymbolGraph) (e : Edge) : Prop where
  heir : setting.IsHeir g e.source
  checked : setting.options.detectHeritageCycles →
    ¬g.extendsWithin setting.options.maxHeritageDepth e.target e.source

end Setting

namespace SymbolGraph

/-- The first symbol contains the second one, or has it as a side, a signature or a parameter. -/
def IsAround (g : SymbolGraph) (x y : SymbolId) : Prop :=
  g.hasEdge ⟨y, x, .containedBy⟩ ∨ ∃ kind : EdgeKind, kind.isSole ∧ g.hasEdge ⟨x, y, kind⟩

/-- One write while names are resolved. Symbols from position `n` on were made since then. -/
inductive Change (setting : Setting) (n : Nat) (g : SymbolGraph) : SymbolGraph → Prop where
  | mark (id : SymbolId) : Change setting n g (g.setResolved id true)
  | make (name : String) (kind : SymbolKind) (flags : Flags SymbolFlag)
      (hs : flags.has .synthesized) (hw : ¬flags.has .wellKnown) :
      Change setting n g (g.alloc name kind flags)
  | point (e : Edge) (hk : e.kind.isResolution) (hs : e.source < g.size) (ht : e.target < g.size)
      (hbase : e.kind = .extends → setting.LinksBase g e) : Change setting n g (g.addEdge e)
  | drop (e : Edge) (hk : e.kind.isResolution) : Change setting n g (g.removeEdge e)
  /-- A first array type of an element type. -/
  | array (e : Edge) (hk : e.kind = .arrayOf) (hs : e.source < g.size) (ht : e.target < g.size)
      (hn : n ≤ e.source) (hfirst : g.sources e.target .arrayOf = [])
      (harray : g.kind? e.source = some .array) : Change setting n g (g.addEdge e)
  /-- What becomes a part is not a part of anything yet. -/
  | part (e : Edge) (hk : e.kind.isPart) (hs : e.source < g.size) (ht : e.target < g.size)
      (hns : n ≤ e.source) (hnt : n ≤ e.target) (hfree : ∀ x, ¬g.IsAround x e.target) :
      Change setting n g (g.addEdge e)

/-- The second graph comes from the first one by resolving. -/
def Resolves (setting : Setting) (g₀ g : SymbolGraph) : Prop :=
  Relation.ReflTransGen (Change setting g₀.size) g₀ g

variable {setting : Setting} {g₀ g g' : SymbolGraph} {n : Nat}

namespace IsAround

variable {x y : SymbolId}

theorem lt_size (h : g.IsAround x y) (hg : g.Mirrored) : x < g.size ∧ y < g.size := by
  rcases h with he | ⟨kind, -, he⟩
  · exact (hg.lt_size he).symm
  · exact hg.lt_size he

/-- The same edges are around the symbol. -/
theorem of_edges (h : g.IsAround x y)
    (hedge : ∀ {e : Edge}, ¬e.kind.isResolution → e.kind ≠ .arrayOf → g.hasEdge e → g'.hasEdge e) :
    g'.IsAround x y := by
  rcases h with he | ⟨kind, hk, he⟩
  · exact .inl (hedge (by simp [EdgeKind.isResolution]) (by simp) he)
  · refine .inr ⟨kind, hk, hedge (EdgeKind.not_isResolution_of_isSole hk) ?_ he⟩
    rintro rfl
    simp [EdgeKind.isSole, EdgeKind.isSignature] at hk

/-- A holder is around its new part, and nothing else is new around anything. -/
theorem of_addEdge {e : Edge} (hk : e.kind.isPart) (hs : e.source < g.size) (ht : e.target < g.size)
    (h : (g.addEdge e).IsAround x y) : g.IsAround x y ∨ x = e.source ∧ y = e.target := by
  rcases h with he | ⟨kind, hkind, he⟩
  · rcases (hasEdge_addEdge hs ht).mp he with he | rfl | ⟨-, heq⟩
    · exact .inl (.inl he)
    · simp [EdgeKind.isPart] at hk
    · obtain ⟨rfl, rfl, -⟩ := Edge.mk.inj heq
      exact .inr ⟨rfl, rfl⟩
  · rcases (hasEdge_addEdge hs ht).mp he with he | rfl | ⟨-, heq⟩
    · exact .inl (.inr ⟨kind, hkind, he⟩)
    · exact .inr ⟨rfl, rfl⟩
    · obtain ⟨-, -, rfl⟩ := Edge.mk.inj heq
      simp [EdgeKind.isSole, EdgeKind.isSignature] at hkind

/-- Nothing is around a symbol that is new. -/
theorem not_alloc (hg : g.Mirrored) (name : String) (kind : SymbolKind) (flags : Flags SymbolFlag) :
    ¬(g.alloc name kind flags).IsAround x g.size := by
  intro h
  have hold : g.IsAround x g.size := h.of_edges fun _ _ he => by simpa [hasEdge] using he
  exact Nat.lt_irrefl _ (hold.lt_size hg).2

end IsAround

namespace Change

theorem wellFormed (h : Change setting n g g') (hg : g.WellFormed) : g'.WellFormed := by
  cases h with
  | mark id => exact hg.modify (by intro s; rfl) (by intro s; rfl) id
  | make name kind flags => exact hg.alloc name kind flags
  | point e hk hs ht => exact hg.addEdge hs ht
  | drop e hk => exact hg.removeEdge e
  | array e hk hs ht => exact hg.addEdge hs ht
  | part e hk hs ht => exact hg.addEdge hs ht

theorem size_le (h : Change setting n g g') : g.size ≤ g'.size := by
  cases h with
  | make name kind flags => simp
  | _ => simp

/-- Labels stay, and a new symbol is synthesized and has no declarations. -/
theorem label? (h : Change setting n g g') {id : SymbolId} (hid : id < g.size) :
    g'.label? id = g.label? id := by
  cases h with
  | make name kind flags => rw [label?_alloc, if_neg (Nat.ne_of_lt hid)]
  | _ => simp

theorem declarations (h : Change setting n g g') (id : SymbolId) :
    g'.declarations id = g.declarations id := by
  cases h with
  | make name kind flags => exact declarations_alloc g name kind flags id
  | _ => exact declarations_congr (by simp)

theorem not_has_wellKnown (h : Change setting n g g') {id : SymbolId} (hid : g.size ≤ id) :
    ¬g'.has id .wellKnown := by
  have hold : ¬g.has id .wellKnown := by simp [has, (get?_eq_none_iff g id).mpr hid]
  cases h with
  | make name kind flags _ hw =>
      rw [has_eq, label?_alloc]
      split
      · simpa [Symbol.has] using hw
      · rwa [← has_eq]
  | _ => exact fun hw => hold ((has_congr (g := g) (by simp) _).symm.trans hw)

theorem has_synthesized (h : Change setting n g g') {id : SymbolId} (hid : g.size ≤ id)
    (hlt : id < g'.size) : g'.has id .synthesized := by
  cases h with
  | make name kind flags hs =>
      obtain rfl : id = g.size := Nat.le_antisymm (Nat.le_of_lt_succ (by simpa using hlt)) hid
      rw [has_eq, label?_alloc, if_pos rfl]
      simpa [Symbol.has] using hs
  | _ => exact absurd hlt (by simpa using hid)

/-- Every new edge is a resolution edge, leads from a new array type to its element type, or stands
between the new parts of a type. -/
theorem hasEdge (h : Change setting n g g') (hg : g.WellFormed) {e : Edge} (he : g'.hasEdge e) :
    g.hasEdge e ∨ e.kind.isResolution ∨ (e.kind = .arrayOf ∧ n ≤ e.source) ∨
      ((e.kind.isPart ∨ e.kind = .containedBy) ∧ n ≤ e.source ∧ n ≤ e.target) := by
  cases h with
  | mark id => exact .inl (by simpa [SymbolGraph.hasEdge] using he)
  | make name kind flags => exact .inl (by simpa [SymbolGraph.hasEdge] using he)
  | point e' hk hs ht =>
      obtain he | rfl | ⟨hm, -⟩ := (hasEdge_addEdge hs ht).mp he
      · exact .inl he
      · exact .inr (.inl hk)
      · exact absurd hm (EdgeKind.not_isMembership_of_isResolution hk)
  | drop e' hk => exact .inl (hg.hasEdge_removeEdge.mp he).1
  | array e' hk hs ht hn =>
      obtain he | rfl | ⟨hm, -⟩ := (hasEdge_addEdge hs ht).mp he
      · exact .inl he
      · exact .inr (.inr (.inl ⟨hk, hn⟩))
      · simp [hk, EdgeKind.isMembership] at hm
  | part e' hk hs ht hns hnt =>
      obtain he | rfl | ⟨-, rfl⟩ := (hasEdge_addEdge hs ht).mp he
      · exact .inl he
      · exact .inr (.inr (.inr ⟨.inl hk, hns, hnt⟩))
      · exact .inr (.inr (.inr ⟨.inr rfl, hnt, hns⟩))

/-- An element type keeps its array type. -/
theorem oneSource_arrayOf (h : Change setting n g g') (hg : g.WellFormed) (ha : g.OneSource .arrayOf) :
    g'.OneSource .arrayOf := by
  cases h with
  | mark id => exact ha.mono fun _ he => by simpa [SymbolGraph.hasEdge] using he
  | make name kind flags => exact ha.mono fun _ he => by simpa [SymbolGraph.hasEdge] using he
  | point e hk hs ht =>
      refine ha.mono fun {x} hx he => (hasEdge_addEdge_of_ne hs ht ?_ ?_).mp he
      · rintro heq
        simp [← heq, hx, EdgeKind.isResolution] at hk
      · simp [hx]
  | drop e hk => exact ha.mono fun _ he => (hg.hasEdge_removeEdge.mp he).1
  | array e hk hs ht hn hfirst =>
      refine ha.addEdge hs ht (by simp [hk, EdgeKind.isMembership]) fun x hx => ?_
      rw [← hg.mem_sources_iff, hfirst] at hx
      exact absurd hx List.not_mem_nil
  | part e hk hs ht =>
      refine ha.mono fun {x} hx he => (hasEdge_addEdge_of_ne hs ht ?_ ?_).mp he
      · rintro heq
        simp [← heq, hx, EdgeKind.isPart] at hk
      · simp [hx]

/-- Edges that do not come from resolving stay. -/
theorem hasEdge_of_bound (h : Change setting n g g') (hg : g.WellFormed) {e : Edge}
    (hk : ¬e.kind.isResolution) (he : g.hasEdge e) : g'.hasEdge e := by
  cases h with
  | mark id => simpa [SymbolGraph.hasEdge] using he
  | make name kind flags => simpa [SymbolGraph.hasEdge] using he
  | point e' _ hs ht => exact (hasEdge_addEdge hs ht).mpr (.inl he)
  | drop e' hk' =>
      refine hg.hasEdge_removeEdge.mpr ⟨he, fun hf => hk ?_⟩
      rw [((fallsWith_iff_of_plain (EdgeKind.not_isMembership_of_isResolution hk')
        (EdgeKind.ne_containedBy_of_isResolution hk')).mp hf).2]
      exact hk'
  | array e' _ hs ht => exact (hasEdge_addEdge hs ht).mpr (.inl he)
  | part e' _ hs ht => exact (hasEdge_addEdge hs ht).mpr (.inl he)

/-- Fewer symbols are counted as new. -/
theorem mono {m : Nat} (h : Change setting n g g') (hm : m ≤ n) : Change setting m g g' := by
  cases h with
  | mark id => exact .mark id
  | make name kind flags hs hw => exact .make name kind flags hs hw
  | point e hk hs ht hbase => exact .point e hk hs ht hbase
  | drop e hk => exact .drop e hk
  | array e hk hs ht hn hfirst harray => exact .array e hk hs ht (Nat.le_trans hm hn) hfirst harray
  | part e hk hs ht hns hnt hfree =>
      exact .part e hk hs ht (Nat.le_trans hm hns) (Nat.le_trans hm hnt) hfree

end Change

namespace Resolves

theorem refl (setting : Setting) (g : SymbolGraph) : Resolves setting g g := Relation.ReflTransGen.refl

theorem change (h : Resolves setting g₀ g) (hc : Change setting g₀.size g g') :
    Resolves setting g₀ g' := h.tail hc

theorem size_le (h : Resolves setting g₀ g) : g₀.size ≤ g.size := by
  induction h with
  | refl => exact Nat.le_refl _
  | tail _ hc ih => exact Nat.le_trans ih hc.size_le

theorem trans (h : Resolves setting g₀ g) (h' : Resolves setting g g') : Resolves setting g₀ g' := by
  induction h' with
  | refl => exact h
  | tail _ hc ih => exact ih.change (hc.mono h.size_le)

theorem wellFormed (h : Resolves setting g₀ g) (h₀ : g₀.WellFormed) : g.WellFormed := by
  induction h with
  | refl => exact h₀
  | tail _ hc ih => exact hc.wellFormed ih

theorem label? (h : Resolves setting g₀ g) {id : SymbolId} (hid : id < g₀.size) :
    g.label? id = g₀.label? id := by
  induction h with
  | refl => rfl
  | tail h hc ih => rw [hc.label? (Nat.lt_of_lt_of_le hid (size_le h)), ih]

theorem not_has_wellKnown (h : Resolves setting g₀ g) {id : SymbolId} (hid : g₀.size ≤ id) :
    ¬g.has id .wellKnown := by
  induction h with
  | refl => simp [has, (get?_eq_none_iff g₀ id).mpr hid]
  | @tail g g' h hc ih =>
      by_cases hlt : id < g.size
      · rwa [has_congr (hc.label? hlt)]
      · exact hc.not_has_wellKnown (Nat.not_lt.mp hlt)

/-- What is new was made for a type. -/
theorem has_synthesized (h : Resolves setting g₀ g) {id : SymbolId} (hid : g₀.size ≤ id)
    (hlt : id < g.size) : g.has id .synthesized := by
  induction h with
  | refl => exact absurd hlt (Nat.not_lt.mpr hid)
  | @tail g g' h hc ih =>
      by_cases hold : id < g.size
      · rw [has_congr (hc.label? hold)]
        exact ih hold
      · exact hc.has_synthesized (Nat.not_lt.mp hold) hlt

theorem hasEdge (h : Resolves setting g₀ g) (h₀ : g₀.WellFormed) {e : Edge} (he : g.hasEdge e) :
    g₀.hasEdge e ∨ e.kind.isResolution ∨ (e.kind = .arrayOf ∧ g₀.size ≤ e.source) ∨
      ((e.kind.isPart ∨ e.kind = .containedBy) ∧ g₀.size ≤ e.source ∧ g₀.size ≤ e.target) := by
  induction h with
  | refl => exact .inl he
  | tail h hc ih =>
      rcases hc.hasEdge (wellFormed h h₀) he with he | hnew
      · exact ih he
      · exact .inr hnew

theorem hasEdge_of_bound (h : Resolves setting g₀ g) (h₀ : g₀.WellFormed) {e : Edge}
    (hk : ¬e.kind.isResolution) (he : g₀.hasEdge e) : g.hasEdge e := by
  induction h with
  | refl => exact he
  | tail h hc ih => exact hc.hasEdge_of_bound (wellFormed h h₀) hk ih

theorem oneSource_arrayOf (h : Resolves setting g₀ g) (h₀ : g₀.WellFormed) (ha : g₀.OneSource .arrayOf) :
    g.OneSource .arrayOf := by
  induction h with
  | refl => exact ha
  | tail h hc ih => exact hc.oneSource_arrayOf (wellFormed h h₀) ih

/-- Classes keep their instance sides. -/
theorem hasEdge_instanceType_iff (h : Resolves setting g₀ g) (h₀ : g₀.WellFormed) {e : Edge}
    (hk : e.kind = .instanceType) : g.hasEdge e ↔ g₀.hasEdge e := by
  constructor
  · intro he
    rcases h.hasEdge h₀ he with he | hr | ⟨ha, -⟩ | ⟨hp | hc, -⟩
    · exact he
    · simp [hk, EdgeKind.isResolution] at hr
    · simp [hk] at ha
    · simp [hk, EdgeKind.isPart] at hp
    · simp [hk] at hc
  · exact h.hasEdge_of_bound h₀ (by simp [hk, EdgeKind.isResolution])

/-- What is around a symbol stays the same. -/
theorem isAround_iff (h : Resolves setting g₀ g) (h₀ : g₀.WellFormed) {x y : SymbolId}
    (hy : y < g₀.size) : g.IsAround x y ↔ g₀.IsAround x y := by
  have hedge : ∀ {e : Edge}, e.kind.isSole ∧ e.target = y ∨ e.kind = .containedBy ∧ e.source = y →
      (g.hasEdge e ↔ g₀.hasEdge e) := by
    intro e he
    have hk : ¬e.kind.isResolution ∧ e.kind ≠ .arrayOf := by
      rcases he with ⟨hk, -⟩ | ⟨hk, -⟩ <;>
        cases hkind : e.kind <;> simp_all [EdgeKind.isSole, EdgeKind.isSignature, EdgeKind.isResolution]
    refine ⟨fun hnew => ?_, h.hasEdge_of_bound h₀ hk.1⟩
    rcases h.hasEdge h₀ hnew with hold | hr | ⟨ha, -⟩ | ⟨-, hs, ht⟩
    · exact hold
    · exact absurd hr hk.1
    · exact absurd ha hk.2
    · rcases he with ⟨-, rfl⟩ | ⟨-, rfl⟩
      · exact absurd hy (Nat.not_lt.mpr ht)
      · exact absurd hy (Nat.not_lt.mpr hs)
  refine or_congr (hedge (.inr ⟨rfl, rfl⟩)) (exists_congr fun kind => and_congr_right fun hk => ?_)
  exact hedge (.inl ⟨hk, rfl⟩)

/-- A part of a synthesized type belongs to the same types as what it is a part of. -/
theorem target_ge (h : Resolves setting g₀ g) (h₀ : g₀.WellFormed) {e : Edge} (he : g.hasEdge e)
    (hk : e.kind.isMembership) (hs : g₀.size ≤ e.source) : g₀.size ≤ e.target := by
  rcases h.hasEdge h₀ he with he | hr | ⟨ha, -⟩ | ⟨-, -, ht⟩
  · exact absurd (h₀.lt_size he).1 (Nat.not_lt.mpr hs)
  · exact absurd hk (EdgeKind.not_isMembership_of_isResolution hr)
  · simp [ha, EdgeKind.isMembership] at hk
  · exact ht

theorem declarations (h : Resolves setting g₀ g) (id : SymbolId) :
    g.declarations id = g₀.declarations id := by
  induction h with
  | refl => rfl
  | tail _ hc ih => rw [hc.declarations, ih]

theorem isHeir_iff (h : Resolves setting g₀ g) (h₀ : g₀.WellFormed) {x : SymbolId} :
    setting.IsHeir g x ↔ setting.IsHeir g₀ x := by
  have hside : ∀ cls, g.hasEdge ⟨cls, x, .instanceType⟩ ↔ g₀.hasEdge ⟨cls, x, .instanceType⟩ :=
    fun cls => h.hasEdge_instanceType_iff h₀ rfl
  simp only [Setting.IsHeir, h.declarations, hside]

/-- Resolving keeps a graph sound. -/
theorem sound (h : Resolves setting g₀ g) (h₀ : g₀.Sound) : g.Sound :=
  have hsides {e : Edge} (hk : e.kind = .instanceType) :=
    h.hasEdge_instanceType_iff h₀.toWellFormed hk
  h₀.of_labels (h.wellFormed h₀.toWellFormed) (fun _ hid => h.label? hid) h.declarations
    (h.oneSource_arrayOf h₀.toWellFormed h₀.arrays) (hsides rfl).mp fun _ => (hsides rfl).mpr

end Resolves

end SymbolGraph

end NameBinding
