import Mathlib.Data.List.Nodup
import Mathlib.Data.List.Perm.Basic
import NameBinding.Proofs.Graph.Label
import NameBinding.Proofs.Graph.Mirrored
import NameBinding.Workspace.Snapshot

/-! # Shapes

Two shapes are equal if the symbols have the same lines, in any order. -/

namespace NameBinding

/-- Two lists whose elements are matched one by one have the same images up to their order. -/
theorem perm_map_of_matching {α β γ : Type} {R : α → β → Prop} {f : α → γ} {g : β → γ}
    {l : List α} {m : List β} (hl : l.Nodup) (hm : m.Nodup)
    (hleft : ∀ a ∈ l, ∃ b ∈ m, R a b) (hright : ∀ b ∈ m, ∃ a ∈ l, R a b)
    (hfun : ∀ {a b b'}, R a b → R a b' → b = b') (hinj : ∀ {a a' b}, R a b → R a' b → a = a')
    (hfg : ∀ a ∈ l, ∀ b ∈ m, R a b → f a = g b) : (l.map f).Perm (m.map g) := by
  induction l generalizing m with
  | nil =>
      have hnil : m = [] := by
        refine List.eq_nil_iff_forall_not_mem.mpr fun b hb => ?_
        obtain ⟨a, ha, -⟩ := hright b hb
        exact List.not_mem_nil ha
      rw [hnil]
      exact List.Perm.refl _
  | cons a l ih =>
      obtain ⟨b, hb, hab⟩ := hleft a List.mem_cons_self
      obtain ⟨s, t, rfl⟩ := List.append_of_mem hb
      have hmiddle : (s ++ b :: t).Perm (b :: (s ++ t)) := List.perm_middle
      obtain ⟨hnew, hrest⟩ := List.nodup_cons.mp (hmiddle.nodup_iff.mp hm)
      obtain ⟨ha, hl⟩ := List.nodup_cons.mp hl
      have hperm : (l.map f).Perm ((s ++ t).map g) := by
        refine ih hl hrest (fun x hx => ?_) (fun y hy => ?_) fun x hx y hy => ?_
        · obtain ⟨y, hy, hxy⟩ := hleft x (List.mem_cons_of_mem a hx)
          rcases List.mem_cons.mp (hmiddle.subset hy) with rfl | hy
          · exact absurd (hinj hxy hab ▸ hx) ha
          · exact ⟨y, hy, hxy⟩
        · obtain ⟨x, hx, hxy⟩ := hright y (hmiddle.symm.subset (List.mem_cons_of_mem b hy))
          rcases List.mem_cons.mp hx with rfl | hx
          · exact absurd (hfun hxy hab ▸ hy) hnew
          · exact ⟨x, hx, hxy⟩
        · exact hfg x (List.mem_cons_of_mem a hx) y
            (hmiddle.symm.subset (List.mem_cons_of_mem b hy))
      have hhead : f a = g b := hfg a List.mem_cons_self b hb hab
      have hlines : ((a :: l).map f).Perm ((b :: (s ++ t)).map g) := by
        rw [List.map_cons, List.map_cons, hhead]
        exact hperm.cons _
      exact hlines.trans (hmiddle.map g).symm

namespace Snapshot

theorem perm_sortLines (lines : List String) : (sortLines lines).Perm lines :=
  List.mergeSort_perm _ _

/-- Sorting forgets the order and nothing else. -/
theorem sortLines_eq_iff {lines lines' : List String} :
    sortLines lines = sortLines lines' ↔ lines.Perm lines' := by
  constructor
  · intro heq
    have hleft := perm_sortLines lines
    rw [heq] at hleft
    exact hleft.symm.trans (perm_sortLines lines')
  · intro hperm
    have hsorted : ∀ l : List String, (sortLines l).Pairwise fun a b => decide (a ≤ b) := by
      intro l
      refine List.pairwise_mergeSort (fun a b c hab hbc => ?_) (fun a b => ?_) l
      · simp only [decide_eq_true_eq] at hab hbc ⊢
        exact String.le_trans hab hbc
      · simpa using String.le_total a b
    refine List.Perm.eq_of_pairwise (fun a b _ _ hab hba => ?_) (hsorted lines) (hsorted lines') ?_
    · exact String.le_antisymm (of_decide_eq_true hab) (of_decide_eq_true hba)
    · exact (perm_sortLines lines).trans (hperm.trans (perm_sortLines lines').symm)

end Snapshot

namespace SymbolGraph

variable {g : SymbolGraph} {id : SymbolId} {v : SymbolView}

/-- What is seen of the symbol at a position, if it lives. -/
def viewAt (g : SymbolGraph) (id : SymbolId) : Option SymbolView :=
  match g.get? id with
  | some s => if isLive s then some (g.view id s) else none
  | none => none

theorem views_eq (g : SymbolGraph) : g.views = g.ids.filterMap g.viewAt := rfl

theorem viewAt_eq_some_iff : g.viewAt id = some v ↔
    ∃ s, g.get? id = some s ∧ isLive s ∧ v = g.view id s := by
  unfold viewAt
  constructor
  · intro hv
    split at hv
    · next s hs =>
      split at hv
      · next hlive => exact ⟨s, hs, hlive, (Option.some.inj hv).symm⟩
      · exact absurd hv (by simp)
    · exact absurd hv (by simp)
  · rintro ⟨s, hs, hlive, rfl⟩
    simp only [hs, hlive, if_true]

theorem id_of_viewAt (h : g.viewAt id = some v) : v.id = id := by
  obtain ⟨s, -, -, rfl⟩ := viewAt_eq_some_iff.mp h
  rfl

theorem mem_views_iff : v ∈ g.views ↔
    ∃ s, g.get? v.id = some s ∧ isLive s ∧ v = g.view v.id s := by
  rw [views_eq, List.mem_filterMap]
  constructor
  · rintro ⟨id, -, hv⟩
    obtain rfl := id_of_viewAt hv
    exact viewAt_eq_some_iff.mp hv
  · rintro ⟨s, hs, hv⟩
    have hlt : v.id < g.size := by
      have hsome := isSome_get? g v.id
      rw [hs] at hsome
      simpa using hsome.symm
    exact ⟨v.id, List.mem_range.mpr hlt, viewAt_eq_some_iff.mpr ⟨s, hs, hv⟩⟩

theorem nodup_views (g : SymbolGraph) : g.views.Nodup := by
  rw [views_eq]
  refine List.Nodup.filterMap ?_ List.nodup_range
  intro id id' v hv hv'
  exact (id_of_viewAt hv).symm.trans (id_of_viewAt hv')

/-- A view says what the graph says. -/
theorem kind_of_mem_views (hv : v ∈ g.views) : some v.kind = g.kind? v.id := by
  obtain ⟨s, hs, -, hview⟩ := mem_views_iff.mp hv
  rw [kind?, hs, hview]
  rfl

theorem eq_of_mem_views {v v' : SymbolView} (hv : v ∈ g.views) (hv' : v' ∈ g.views)
    (hid : v.id = v'.id) : v = v' := by
  obtain ⟨s, hs, -, hview⟩ := mem_views_iff.mp hv
  obtain ⟨s', hs', -, hview'⟩ := mem_views_iff.mp hv'
  rw [← hid, hs] at hs'
  rw [hview, hview', ← hid, Option.some.inj hs']

end SymbolGraph

namespace Workspace

open SymbolGraph

variable {w : Workspace} {id : SymbolId}

/-- The symbol is in the snapshot. -/
def IsLive (w : Workspace) (id : SymbolId) : Prop := ∃ s, w.graph.get? id = some s ∧ isLive s

/-- The kind of a living symbol is found in the snapshot. -/
theorem kindOf?_snapshot (h : w.IsLive id) : w.snapshot.kindOf? id = w.graph.kind? id := by
  obtain ⟨s, hs, hlive⟩ := h
  have hv : w.graph.view id s ∈ w.graph.views := mem_views_iff.mpr ⟨s, hs, hlive, rfl⟩
  have hfound : (w.graph.views.reverse.find? fun v => v.id == id).isSome := by
    rw [List.find?_isSome]
    exact ⟨_, List.mem_reverse.mpr hv, by simp [view]⟩
  obtain ⟨v, hfind⟩ := Option.isSome_iff_exists.mp hfound
  have hm : v ∈ w.graph.views := List.mem_reverse.mp (List.mem_of_find?_eq_some hfind)
  obtain rfl : v.id = id := by simpa using List.find?_some hfind
  change (w.graph.views.reverse.find? fun u => u.id == v.id).map (·.kind) = _
  rw [hfind]
  exact kind_of_mem_views hm

/-- The lines of some symbols in the shape. -/
def linesWhere (w : Workspace) (p : SymbolId → Bool) : List String :=
  (w.graph.views.filter fun v => p v.id).map w.snapshot.symbolLine

/-- The lines are those of some symbols and of the others. -/
theorem perm_linesWhere (w : Workspace) (p : SymbolId → Bool) :
    (w.linesWhere p ++ w.linesWhere (!p ·)).Perm (w.graph.views.map w.snapshot.symbolLine) := by
  rw [linesWhere, linesWhere, ← List.map_append]
  exact (List.filter_append_perm (fun v => p v.id) w.graph.views).map _

/-- Where the lines of some symbols agree, the shapes agree if the other lines do. -/
theorem shape_eq_iff_of_perm {w w' : Workspace} {p p' : SymbolId → Bool}
    (h : (w.linesWhere (!p ·)).Perm (w'.linesWhere (!p' ·))) :
    w.snapshot.shape = w'.snapshot.shape ↔ (w.linesWhere p).Perm (w'.linesWhere p') := by
  have hlines : w.snapshot.shape = w'.snapshot.shape ↔
      (w.linesWhere p ++ w.linesWhere (!p ·)).Perm (w'.linesWhere p' ++ w'.linesWhere (!p' ·)) := by
    refine Snapshot.sortLines_eq_iff.trans ?_
    exact ⟨fun hp => (w.perm_linesWhere p).trans (hp.trans (w'.perm_linesWhere p').symm),
      fun hp => (w.perm_linesWhere p).symm.trans (hp.trans (w'.perm_linesWhere p'))⟩
  rw [hlines]
  constructor
  · intro hp
    have hsame := (h.append_left (w'.linesWhere p')).symm
    exact (List.perm_append_right_iff _).mp (hp.trans hsame)
  · exact fun hp => hp.append h

end Workspace

end NameBinding
