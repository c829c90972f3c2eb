import NameBinding.Proofs.Graph.Query
import NameBinding.Proofs.Graph.Sound

/-! # Lists in the order of declarations

Signatures and parameters stand after the edge from their owner in the order in which they were
linked, and a function lists its declarations in the order in which they were bound. Both are the order
of the declarations. A change that touches neither these edges nor these declarations is calm. -/

namespace NameBinding

namespace DeclId

variable {d e f : DeclId}

/-- The declaration stands in an earlier unit, or earlier in the same unit. -/
def Before (d e : DeclId) : Prop := d.unit < e.unit ∨ d.unit = e.unit ∧ d.index < e.index

/-- The position right after a declaration. -/
def next (d : DeclId) : DeclId := ⟨d.unit, d.index + 1⟩

theorem not_before_self (d : DeclId) : ¬d.Before d := by
  simp [Before]

theorem Before.trans (h : d.Before e) (h' : e.Before f) : d.Before f := by
  rcases h with h | ⟨hu, hi⟩
  · rcases h' with h' | ⟨hu', -⟩
    · exact .inl (Nat.lt_trans h h')
    · exact .inl (hu' ▸ h)
  · rcases h' with h' | ⟨hu', hi'⟩
    · exact .inl (hu ▸ h')
    · exact .inr ⟨hu.trans hu', Nat.lt_trans hi hi'⟩

theorem Before.not_before (h : d.Before e) : ¬e.Before d := fun h' => not_before_self d (h.trans h')

theorem Before.ne (h : d.Before e) : d ≠ e := by
  rintro rfl
  exact not_before_self d h

theorem before_next_self (d : DeclId) : d.Before d.next := by
  simp [Before, next]

/-- Lists in order are equal if they have the same declarations. -/
theorem eq_of_pairwise_before {l m : List DeclId} (hl : l.Pairwise Before)
    (hm : m.Pairwise Before) (h : ∀ d, d ∈ l ↔ d ∈ m) : l = m := by
  have hnodup : ∀ {l : List DeclId}, l.Pairwise Before → l.Nodup := fun hl => hl.imp Before.ne
  refine List.Perm.eq_of_pairwise (fun d e _ _ hde hed => absurd hed hde.not_before) hl hm ?_
  exact (List.perm_ext_iff_of_nodup (hnodup hl) (hnodup hm)).mpr h

end DeclId

namespace SymbolGraph

variable {g g₀ g' : SymbolGraph} {x y : SymbolId} {d : DeclId} {e : Edge}
  {edge : EdgeKind} {kind : SymbolKind} {kinds : SymbolKind → Bool}

/-- The symbol is of one of the kinds. -/
def Is (g : SymbolGraph) (kinds : SymbolKind → Bool) (x : SymbolId) : Prop :=
  ∃ kind, g.kind? x = some kind ∧ kinds kind

theorem Is.lt_size (h : g.Is kinds x) : x < g.size := by
  obtain ⟨kind, hk, -⟩ := h
  exact lt_size_of_kind? hk

theorem is_congr (h : g'.kind? x = g.kind? x) : g'.Is kinds x ↔ g.Is kinds x := by
  simp [Is, h]

/-! ### Single changes -/

theorem targets_alloc (g : SymbolGraph) (name : String) (kind : SymbolKind)
    (flags : Flags SymbolFlag) (x : SymbolId) (edge : EdgeKind) :
    (g.alloc name kind flags).targets x edge = g.targets x edge := by
  simp [targets_eq]

theorem targets_declare (g : SymbolGraph) (id : SymbolId) (d : DeclId) (x : SymbolId)
    (edge : EdgeKind) : (g.declare id d).targets x edge = g.targets x edge := by
  simp [targets_eq]

theorem targets_eq_nil (h : g.size ≤ x) (edge : EdgeKind) : g.targets x edge = [] := by
  simp [targets_eq, outgoing_eq_nil h]

theorem kind?_alloc (g : SymbolGraph) (name : String) (kind : SymbolKind)
    (flags : Flags SymbolFlag) (x : SymbolId) :
    (g.alloc name kind flags).kind? x = if x = g.size then some kind else g.kind? x := by
  rw [kind?_eq, label?_alloc]
  split
  · rfl
  · exact (kind?_eq g x).symm

theorem has_alloc (g : SymbolGraph) (name : String) (kind : SymbolKind)
    (flags : Flags SymbolFlag) (x : SymbolId) (f : SymbolFlag) :
    (g.alloc name kind flags).has x f = if x = g.size then flags.has f else g.has x f := by
  rw [has_eq, label?_alloc]
  split
  · rfl
  · exact (has_eq g x f).symm

/-- A declaration that is not listed yet comes after the others. -/
theorem declarations_declare (g : SymbolGraph) (id : SymbolId) (d : DeclId) (x : SymbolId) :
    (g.declare id d).declarations x = if x = id ∧ x < g.size ∧ d ∉ g.declarations x then
        g.declarations x ++ [d]
      else g.declarations x := by
  by_cases hx : x = id ∧ x < g.size
  · obtain ⟨rfl, hlt⟩ := hx
    obtain ⟨s, hs⟩ := Option.isSome_iff_exists.mp ((isSome_get? g x).trans (decide_eq_true hlt))
    by_cases hd : d ∈ s.declarations <;> simp [declarations, get?_declare, hs, hd, hlt]
  · rw [if_neg fun h => hx ⟨h.1, h.2.1⟩]
    rw [declarations, get?_declare]
    split
    · next hid =>
      have hnone : g.get? x = none := (get?_eq_none_iff g x).mpr (by simpa [hid] using hx)
      simp [declarations, hnone]
    · rfl

theorem declarations_declare_of_ne (g : SymbolGraph) (d : DeclId) (h : x ≠ y) :
    (g.declare y d).declarations x = g.declarations x := by
  rw [declarations_declare, if_neg fun hx => h hx.1]

/-! ### A new symbol for a declaration -/

/-- The graph with a new symbol that lists a declaration. -/
def allocFor (g : SymbolGraph) (name : String) (kind : SymbolKind) (flags : Flags SymbolFlag)
    (d : DeclId) : SymbolGraph :=
  (g.alloc name kind flags).declare g.size d

section AllocFor

variable (g) (name : String) (kind : SymbolKind) (flags : Flags SymbolFlag) (d)

@[simp] theorem size_allocFor : (g.allocFor name kind flags d).size = g.size + 1 := by
  simp [allocFor]

theorem WellFormed.allocFor (h : g.WellFormed) : (g.allocFor name kind flags d).WellFormed :=
  (h.alloc name kind flags).of_edges_eq (outgoing_declare _ _ _) (incoming_declare _ _ _)

theorem targets_allocFor (x : SymbolId) (edge : EdgeKind) :
    (g.allocFor name kind flags d).targets x edge = g.targets x edge := by
  rw [SymbolGraph.allocFor, targets_declare, targets_alloc]

theorem kind?_allocFor_size : (g.allocFor name kind flags d).kind? g.size = some kind := by
  rw [allocFor, kind?_declare, kind?_alloc, if_pos rfl]

theorem kind?_allocFor (hx : x < g.size) : (g.allocFor name kind flags d).kind? x = g.kind? x := by
  rw [allocFor, kind?_declare, kind?_alloc, if_neg (Nat.ne_of_lt hx)]

theorem has_allocFor_size (f : SymbolFlag) :
    (g.allocFor name kind flags d).has g.size f = flags.has f := by
  rw [allocFor, has_declare, has_alloc, if_pos rfl]

theorem has_allocFor (hx : x < g.size) (f : SymbolFlag) :
    (g.allocFor name kind flags d).has x f = g.has x f := by
  rw [allocFor, has_declare, has_alloc, if_neg (Nat.ne_of_lt hx)]

theorem declarations_allocFor_size : (g.allocFor name kind flags d).declarations g.size = [d] := by
  rw [allocFor, declarations_declare, declarations_alloc, declarations_eq_nil (Nat.le_refl _)]
  simp

theorem declarations_allocFor (hx : x < g.size) :
    (g.allocFor name kind flags d).declarations x = g.declarations x := by
  rw [allocFor, declarations_declare_of_ne _ _ (Nat.ne_of_lt hx), declarations_alloc]

end AllocFor

/-- No edge leads to the new symbol yet. -/
theorem WellFormed.size_not_mem_targets_alloc (h : g.WellFormed) (name : String)
    (kind : SymbolKind) (flags : Flags SymbolFlag) (x : SymbolId) (edge : EdgeKind) :
    g.size ∉ (g.alloc name kind flags).targets x edge := by
  rw [targets_alloc]
  exact fun hx => Nat.lt_irrefl _ (lt_size_of_mem_targets h.toMirrored hx)

/-! ### Calm changes -/

/-- From a graph to another one the edges of a kind stay, and so do the declarations on symbols of
some kinds. A new symbol has such edges only inside a synthesized type. -/
structure Calm (edge : EdgeKind) (kinds : SymbolKind → Bool) (g₀ g : SymbolGraph) : Prop where
  wellFormed : g.WellFormed
  size_le : g₀.size ≤ g.size
  kind? : ∀ {x}, x < g₀.size → g.kind? x = g₀.kind? x
  has : ∀ {x} f, x < g₀.size → g.has x f = g₀.has x f
  targets : ∀ {x}, x < g₀.size → g.targets x edge = g₀.targets x edge
  made : ∀ {x}, g₀.size ≤ x → ∀ t ∈ g.targets x edge, g₀.size ≤ t ∧ g.has x .synthesized
  declarations : ∀ {x}, g.Is kinds x → g.declarations x = g₀.declarations x

namespace Calm

theorem refl (h : g.WellFormed) : Calm edge kinds g g where
  wellFormed := h
  size_le := Nat.le_refl _
  kind? _ := rfl
  has _ _ := rfl
  targets _ := rfl
  made hx t ht := by simp [targets_eq_nil hx] at ht
  declarations _ := rfl

theorem mono (h : Calm edge kinds g₀ g) {fewer : SymbolKind → Bool}
    (hfewer : ∀ kind, fewer kind → kinds kind) : Calm edge fewer g₀ g :=
  { h with declarations := fun ⟨kind, hk, hin⟩ => h.declarations ⟨kind, hk, hfewer kind hin⟩ }

theorem is_iff (h : Calm edge kinds g₀ g) {some : SymbolKind → Bool} (hx : x < g₀.size) :
    g.Is some x ↔ g₀.Is some x := is_congr (h.kind? hx)

theorem alloc (h : Calm edge kinds g₀ g) (name : String) (kind : SymbolKind)
    (flags : Flags SymbolFlag) : Calm edge kinds g₀ (g.alloc name kind flags) where
  wellFormed := h.wellFormed.alloc name kind flags
  size_le := by
    rw [size_alloc]
    exact Nat.le_succ_of_le h.size_le
  kind? hx := by
    rw [kind?_alloc, if_neg (Nat.ne_of_lt (Nat.lt_of_lt_of_le hx h.size_le)), h.kind? hx]
  has f hx := by
    rw [has_alloc, if_neg (Nat.ne_of_lt (Nat.lt_of_lt_of_le hx h.size_le)), h.has f hx]
  targets hx := by rw [targets_alloc, h.targets hx]
  made {x} hx t ht := by
    rw [targets_alloc] at ht
    have hlt := (h.wellFormed.lt_size (h.wellFormed.mem_targets_iff.mp ht)).1
    rw [has_alloc, if_neg (Nat.ne_of_lt hlt)]
    exact h.made hx t ht
  declarations {x} his := by
    rw [declarations_alloc]
    by_cases hx : x = g.size
    · subst hx
      rw [declarations_eq_nil (Nat.le_refl _), declarations_eq_nil h.size_le]
    · refine h.declarations ((is_congr ?_).mp his)
      rw [kind?_alloc, if_neg hx]

/-- The declaration is listed already, or goes to a symbol of another kind. -/
theorem declare (h : Calm edge kinds g₀ g) (hd : ¬g.Is kinds x ∨ d ∈ g.declarations x) :
    Calm edge kinds g₀ (g.declare x d) where
  wellFormed := h.wellFormed.of_edges_eq (outgoing_declare g x d) (incoming_declare g x d)
  size_le := by
    rw [size_declare]
    exact h.size_le
  kind? hx := by rw [kind?_declare, h.kind? hx]
  has f hx := by rw [has_declare, h.has f hx]
  targets hx := by rw [targets_declare, h.targets hx]
  made hx t ht := by
    rw [targets_declare] at ht
    rw [has_declare]
    exact h.made hx t ht
  declarations {y} his := by
    rw [is_congr (kind?_declare g x d y)] at his
    rw [declarations_declare, if_neg, h.declarations his]
    rintro ⟨rfl, -, hnew⟩
    exact hd.elim (fun hkind => hkind his) hnew

/-- Another kind of edge, or one between new symbols in a synthesized type. -/
theorem addEdge (h : Calm edge kinds g₀ g) (hs : e.source < g.size) (ht : e.target < g.size)
    (hc : edge ≠ .containedBy) (hedge : e.kind = edge → g₀.size ≤ e.source ∧ g₀.size ≤ e.target ∧
      g.has e.source .synthesized) : Calm edge kinds g₀ (g.addEdge e) := by
  have hlabel : ∀ x, (g.addEdge e).label? x = g.label? x := label?_addEdge g e
  exact {
    wellFormed := h.wellFormed.addEdge hs ht
    size_le := by rw [size_addEdge]; exact h.size_le
    kind? := fun hx => (kind?_congr (hlabel _)).trans (h.kind? hx)
    has := fun f hx => (has_congr (hlabel _) f).trans (h.has f hx)
    targets := fun {x} hx => by
      rw [targets_addEdge g e x hc, if_neg, h.targets hx]
      rintro ⟨rfl, hk, -⟩
      have hold := (hedge hk).1
      omega
    made := fun {x} hx t hmem => by
      rw [has_congr (hlabel _)]
      rw [targets_addEdge g e x hc] at hmem
      split at hmem
      · next hnew =>
        obtain ⟨rfl, hk, -⟩ := hnew
        rcases List.mem_append.mp hmem with hmem | hmem
        · exact h.made hx t hmem
        · obtain rfl := List.mem_singleton.mp hmem
          exact (hedge hk).2
      · exact h.made hx t hmem
    declarations := fun his => by
      rw [declarations_congr (hlabel _)]
      exact h.declarations ((is_congr (kind?_congr (hlabel _))).mp his) }

end Calm

/-! ### Lists in order -/

/-- If both symbols are of the kind, the declarations of the first one come before those of the
other one. -/
def Precedes (g : SymbolGraph) (kind : SymbolKind) (x y : SymbolId) : Prop :=
  g.kind? x = some kind → g.kind? y = some kind →
    ∀ d ∈ g.declarations x, ∀ e ∈ g.declarations y, d.Before e

/-- The edges of a kind lead to symbols of a kind in the order of their declarations. -/
def Lined (g : SymbolGraph) (edge : EdgeKind) (kind : SymbolKind) : Prop :=
  ∀ x, (g.targets x edge).Pairwise (g.Precedes kind)

theorem Precedes.congr (h : g.Precedes kind x y) (hx : g'.kind? x = some kind →
      g.kind? x = some kind ∧ g'.declarations x = g.declarations x)
    (hy : g'.kind? y = some kind → g.kind? y = some kind ∧ g'.declarations y = g.declarations y) :
    g'.Precedes kind x y := by
  intro hkx hky d hd e he
  exact h (hx hkx).1 (hy hky).1 d ((hx hkx).2 ▸ hd) e ((hy hky).2 ▸ he)

namespace Lined

theorem calm (h : g₀.Lined edge kind) (h₀ : g₀.WellFormed) (hcalm : Calm edge kinds g₀ g)
    (hk : kinds kind) : g.Lined edge kind := by
  have hdecl : ∀ {x}, g.kind? x = some kind → g.declarations x = g₀.declarations x :=
    fun hx => hcalm.declarations ⟨kind, hx, hk⟩
  intro x
  by_cases hx : x < g₀.size
  · rw [hcalm.targets hx]
    refine (h x).imp_of_mem fun {s t} hs ht hst => ?_
    have hlt : ∀ {s}, s ∈ g₀.targets x edge → s < g₀.size := fun hs =>
      lt_size_of_mem_targets h₀.toMirrored hs
    exact hst.congr (fun hk => ⟨hcalm.kind? (hlt hs) ▸ hk, hdecl hk⟩)
      fun hk => ⟨hcalm.kind? (hlt ht) ▸ hk, hdecl hk⟩
  · refine List.pairwise_of_forall_mem_list fun s hs t _ hks _ d hd => ?_
    rw [hdecl hks, declarations_eq_nil (hcalm.made (Nat.not_lt.mp hx) s hs).1] at hd
    exact absurd hd List.not_mem_nil

/-- What no edge of the kind leads to can be declared. -/
theorem declare (h : g.Lined edge kind) (hfree : ∀ y, x ∉ g.targets y edge) (d : DeclId) :
    (g.declare x d).Lined edge kind := by
  intro y
  rw [targets_declare]
  refine (h y).imp_of_mem fun {s t} hs ht hst => ?_
  have hne : ∀ {s}, s ∈ g.targets y edge → s ≠ x := by
    rintro s hs rfl
    exact hfree y hs
  exact hst.congr (fun hk => ⟨kind?_declare g x d s ▸ hk, declarations_declare_of_ne g d (hne hs)⟩)
    fun hk => ⟨kind?_declare g x d t ▸ hk, declarations_declare_of_ne g d (hne ht)⟩

/-- A new edge comes after those that lead to earlier declarations. -/
theorem addEdge (h : g.Lined edge kind) (hc : edge ≠ .containedBy)
    (hlast : e.kind = edge → ¬g.hasEdge e →
      ∀ t ∈ g.targets e.source edge, g.Precedes kind t e.target) :
    (g.addEdge e).Lined edge kind := by
  have hlabel : ∀ x, (g.addEdge e).label? x = g.label? x := label?_addEdge g e
  have hsame : ∀ {x}, (g.addEdge e).kind? x = some kind → g.kind? x = some kind ∧
      (g.addEdge e).declarations x = g.declarations x := fun hx =>
    ⟨kind?_congr (hlabel _) ▸ hx, declarations_congr (hlabel _)⟩
  have hprecedes : ∀ {x y}, g.Precedes kind x y → (g.addEdge e).Precedes kind x y := fun hxy =>
    hxy.congr hsame hsame
  intro x
  rw [targets_addEdge g e x hc]
  split
  · next hnew =>
    obtain ⟨rfl, hk, -, hedge⟩ := hnew
    refine List.pairwise_append.mpr ⟨(h _).imp hprecedes, List.pairwise_singleton _ _, ?_⟩
    intro t ht y hy
    obtain rfl := List.mem_singleton.mp hy
    exact hprecedes (hlast hk hedge t ht)
  · exact (h x).imp hprecedes

/-- What is left of the lists is in order. -/
theorem thin (h : g.Lined edge kind) (htargets : ∀ x, (g'.targets x edge).Sublist (g.targets x edge))
    (hkind : ∀ x, g'.kind? x = g.kind? x) (hdecl : ∀ x, g'.declarations x ⊆ g.declarations x) :
    g'.Lined edge kind := by
  intro x
  refine ((h x).sublist (htargets x)).imp fun {s t} hst hks hkt d hd e he => ?_
  exact hst (hkind s ▸ hks) (hkind t ▸ hkt) d (hdecl s hd) e (hdecl t he)

/-- Symbols that have one declaration each list a whole set of them, in order. -/
theorem map_declarations (h : g.Lined edge kind) {l : List SymbolId} {ds : List DeclId}
    (hl : l.Sublist (g.targets x edge)) (hds : ds.Pairwise DeclId.Before)
    (hsingle : ∀ s ∈ l, g.kind? s = some kind ∧ ∃ d, g.declarations s = [d])
    (hmem : ∀ d, d ∈ ds ↔ ∃ s ∈ l, d ∈ g.declarations s) :
    l.map g.declarations = ds.map ([·]) := by
  have hordered : (l.flatMap g.declarations).Pairwise DeclId.Before := by
    refine List.pairwise_flatMap.mpr ⟨fun s hs => ?_, ?_⟩
    · obtain ⟨-, d, hd⟩ := hsingle s hs
      rw [hd]
      exact List.pairwise_singleton _ _
    · refine ((h x).sublist hl).imp_of_mem fun {s t} hs ht hst => ?_
      exact hst (hsingle s hs).1 (hsingle t ht).1
  have hflat : l.flatMap g.declarations = ds :=
    DeclId.eq_of_pairwise_before hordered hds fun d => by rw [List.mem_flatMap, hmem]
  rw [← hflat, List.map_flatMap, List.map_eq_flatMap]
  refine List.flatMap_congr fun s hs => ?_
  obtain ⟨-, d, hd⟩ := hsingle s hs
  rw [hd]
  rfl

end Lined

end SymbolGraph

end NameBinding
