import NameBinding.Proofs.Place.Settled

/-! # Charts without the contributions of a unit

When a unit goes, the places go that only its declarations contribute to. -/

namespace NameBinding

open SymbolGraph

namespace Chart

open Classical in
/-- The chart without the contributions of a unit, and without the places that only it filled. -/
noncomputable def without (c : Chart) (unit : UnitId) : Chart where
  place x := (c.place x).filter fun q => ∃ d, c.contributes d q ∧ d.unit ≠ unit
  attachment x :=
    if ∃ q d, c.place x = some q ∧ c.contributes d q ∧ d.unit ≠ unit then c.attachment x else none
  contributes d q := c.contributes d q ∧ d.unit ≠ unit

variable {c : Chart} {unit : UnitId} {x : SymbolId} {q : Place} {a : Attachment} {e : Edge}

theorem place_without : (c.without unit).place x = some q ↔
    c.place x = some q ∧ ∃ d, (c.without unit).contributes d q := by
  simp only [without, Option.filter_eq_some_iff, decide_eq_true_eq]

theorem attachment_without (hx : (c.without unit).place x = some q) :
    (c.without unit).attachment x = c.attachment x := by
  obtain ⟨hx, d, hd⟩ := place_without.mp hx
  exact if_pos ⟨q, d, hx, hd⟩

theorem of_attachment_without (ha : (c.without unit).attachment x = some a) :
    c.attachment x = some a ∧ ∃ q, (c.without unit).place x = some q := by
  simp only [without] at ha
  split at ha
  · next hx =>
    obtain ⟨q, d, hx, hd⟩ := hx
    exact ⟨ha, q, place_without.mpr ⟨hx, d, hd⟩⟩
  · exact absurd ha (by simp)

/-- What is left is joined as before. -/
theorem joins_without : (c.without unit).Joins e ↔ c.Joins e ∧
    ((c.without unit).place e.source).isSome ∧ ((c.without unit).place e.target).isSome := by
  constructor
  · intro hj
    refine ⟨?_, hj.placed⟩
    obtain ⟨x, y, q, a, hx, hy, ha, he⟩ := hj
    exact ⟨x, y, q, a, (place_without.mp hx).1, (place_without.mp hy).1,
      (of_attachment_without ha).1, he⟩
  · rintro ⟨⟨x, y, q, a, hx, hy, ha, he⟩, hs, ht⟩
    have hends : ((c.without unit).place x).isSome ∧ ((c.without unit).place y).isSome := by
      rcases Attachment.ends_of_mem_edges he with ⟨rfl, rfl⟩ | ⟨rfl, rfl⟩
      · exact ⟨ht, hs⟩
      · exact ⟨hs, ht⟩
    obtain ⟨r, hr⟩ := Option.isSome_iff_exists.mp hends.1
    obtain ⟨s, hs⟩ := Option.isSome_iff_exists.mp hends.2
    obtain rfl := Option.some.inj (hx.symm.trans (place_without.mp hr).1)
    obtain rfl := Option.some.inj (hy.symm.trans (place_without.mp hs).1)
    exact ⟨x, y, q, a, hr, hs, (attachment_without hr).trans ha, he⟩

end Chart

namespace Binding

variable {c : Chart} {b : Binding} {unit : UnitId} {u : CompilationUnit}

/-- The unit is gone, and so are its declarations and the edges of what died with it. -/
theorem Charted.without (h : Charted c b) (hu : u ∈ b.program.units)
    {g : SymbolGraph} {dead : List SymbolId} (hw : g.WellFormed)
    (hlabel : ∀ x, g.label? x = (b.graph.forgetUnit u.id).label? x)
    (hedge : ∀ e, g.hasEdge e ↔ b.graph.hasEdge e ∧ e.source ∉ dead ∧ e.target ∉ dead)
    (hdead : ∀ {x q}, c.place x = some q → (x ∉ dead ↔ ((c.without u.id).place x).isSome))
    (howner : ∀ {d q}, c.contributes d q →
      q.owner = .top ∨ ∃ i, c.contributes ⟨d.unit, i⟩ q.owner) :
    Charted (c.without u.id) ⟨g, b.program.remove u.path⟩ := by
  have hplace : ∀ {x q}, (c.without u.id).place x = some q → c.place x = some q := fun hx =>
    (Chart.place_without.mp hx).1
  have hdecl : ∀ x, g.declarations x = (b.graph.declarations x).filter fun d => d.unit != u.id := by
    intro x
    rw [declarations_congr (hlabel x), declarations_forgetUnit]
  have hkeep : ∀ {v}, v ∈ b.program.units → v.id ≠ u.id → v ∈ (b.program.remove u.path).units :=
    fun hv hne => Program.mem_remove.mpr ⟨hv, fun hp => hne (by rw [h.program.eq_of_path hv hu hp])⟩
  have hsize : g.size = b.graph.size := by
    rw [size_eq_of_label? hlabel, size_forgetUnit]
  constructor
  · exact h.program.remove u.path
  · exact hw
  · intro x q hx
    rw [hsize]
    exact h.lt_size (hplace hx)
  · exact fun hx hy => h.injective (hplace hx) (hplace hy)
  · exact fun hx => h.proper (hplace hx)
  · intro x q hx
    obtain ⟨s, hs', hfit⟩ := h.fits (hplace hx)
    rw [hlabel, label?_forgetUnit, hs']
    exact ⟨_, rfl, hfit.name, hfit.kind, hfit.flags⟩
  · intro x q hx d
    rw [hdecl, List.mem_filter, h.declarations (hplace hx)]
    simp [Chart.without]
  · intro x hx
    rw [hdecl]
    cases hold : c.place x with
    | none => simp [h.undeclared hold]
    | some q =>
        refine List.filter_eq_nil_iff.mpr fun d hd hunit => ?_
        have hc := (h.declarations hold d).mp hd
        have hplaced : (c.without u.id).place x = some q :=
          Chart.place_without.mpr ⟨hold, d, hc, by simpa using hunit⟩
        exact absurd (hx.symm.trans hplaced) (by simp)
  · intro x
    rw [hdecl]
    exact (h.unrepeated x).filter _
  · rintro d q ⟨hd, hne⟩
    obtain ⟨x, hx⟩ := h.filled hd
    exact ⟨x, Chart.place_without.mpr ⟨hx, d, hd, hne⟩⟩
  · rintro d q ⟨hd, hne⟩
    obtain ⟨v, hv, hid, hspot⟩ := h.authored hd
    exact ⟨v, hkeep hv (hid ▸ hne), hid, hspot⟩
  · intro x q hx
    obtain ⟨-, d, hd, hne⟩ := Chart.place_without.mp hx
    refine (howner hd).imp_right fun ⟨i, hi⟩ => ?_
    obtain ⟨y, hy⟩ := h.filled hi
    exact ⟨y, Chart.place_without.mpr ⟨hy, _, hi, hne⟩⟩
  · intro x a ha
    obtain ⟨ha, q, hq⟩ := Chart.of_attachment_without ha
    obtain ⟨r, hr, hacc⟩ := h.attached ha
    obtain rfl := Option.some.inj (hr.symm.trans (hplace hq))
    exact ⟨r, hq, hacc⟩
  · intro e hk hends
    have hends' : (c.place e.source).isSome ∨ (c.place e.target).isSome := by
      rcases hends with hx | hx
      · obtain ⟨q, hq⟩ := Option.isSome_iff_exists.mp hx
        exact .inl (by rw [hplace hq]; rfl)
      · obtain ⟨q, hq⟩ := Option.isSome_iff_exists.mp hx
        exact .inr (by rw [hplace hq]; rfl)
    rw [hedge, h.joined hk hends', Chart.joins_without]
    refine and_congr_right fun hj => ?_
    obtain ⟨q, hq⟩ := Option.isSome_iff_exists.mp hj.placed.1
    obtain ⟨r, hr⟩ := Option.isSome_iff_exists.mp hj.placed.2
    rw [hdead hq, hdead hr]
  · intro v x name hv hx
    obtain ⟨hlt, hq⟩ := h.listed (Program.mem_remove.mp hv).1 hx
    exact ⟨hsize ▸ hlt, fun q hx' => hq q (hplace hx')⟩
  · rintro d x name kind ⟨hd, hne⟩ hx
    obtain ⟨v, hv, hid, hm⟩ := h.global hd (hplace hx)
    exact ⟨v, hkeep hv (hid ▸ hne), hid, hm⟩

end Binding

namespace Chart

variable {c : Chart} {unit : UnitId}

theorem Settled.without (h : c.Settled)
    (hside : ∀ {d q}, c.contributes d q → q.kind? = some .classType →
      ∃ i, c.contributes ⟨d.unit, i⟩ q.instanceSide)
    (hfilled : ∀ {d q}, c.contributes d q → ∃ x, c.place x = some q) :
    (c.without unit).Settled where
  hung {x q} hx := by
    rw [attachment_without hx]
    exact h.hung (place_without.mp hx).1
  backed hx := (place_without.mp hx).2
  sided {x q} hx hk := by
    obtain ⟨-, d, hd, hne⟩ := place_without.mp hx
    obtain ⟨i, hi⟩ := hside hd hk
    obtain ⟨y, hy⟩ := hfilled hi
    exact ⟨y, place_without.mpr ⟨hy, _, hi, hne⟩⟩

end Chart

end NameBinding
