import NameBinding.Proofs.Place.Steps

/-! # Settled charts

Between two declarations every symbol hangs on its owner and has a declaration, and every class has
its instance side. Then the graph tells where a declaration goes and with which symbol it merges. -/

namespace NameBinding

open SymbolGraph

namespace Chart

/-- No symbol is half made. -/
structure Settled (c : Chart) : Prop where
  hung : ∀ {x q}, c.place x = some q → ∃ a, c.attachment x = some a
  backed : ∀ {x q}, c.place x = some q → ∃ d, c.contributes d q
  sided : ∀ {x q}, c.place x = some q → q.kind? = some .classType →
    ∃ y, c.place y = some q.instanceSide

/-- The symbol stands at the place, and no symbol at the top. -/
def Holds (c : Chart) : Option SymbolId → Place → Prop
  | none, q => q = .top
  | some x, q => c.place x = some q

theorem Holds.mono {c c' : Chart} {scope : Option SymbolId} {q : Place} (h : c.Holds scope q)
    (hplace : ∀ {x q}, c.place x = some q → c'.place x = some q) : c'.Holds scope q := by
  cases scope with
  | none => exact h
  | some x => exact hplace h

theorem Holds.place_unique {c : Chart} {scope : Option SymbolId} {q r : Place}
    (hq : c.Holds scope q) (hr : c.Holds scope r) : q = r := by
  cases scope with
  | none => exact Eq.trans hq (Eq.symm hr)
  | some x => exact Option.some.inj (Eq.trans (Eq.symm hq) hr)

end Chart

namespace Attachment

variable {a : Attachment} {owner symbol x y : SymbolId}

/-- Only instance sides hang on an edge for them. -/
theorem Proper.instanceType_mem_edges_iff (h : a.Proper) :
    ⟨x, y, .instanceType⟩ ∈ a.edges owner symbol ↔ a = .side ∧ x = owner ∧ y = symbol := by
  unfold edges
  split
  · simp
  · next kind =>
    have hm : kind.isMembership := h
    have hne : EdgeKind.instanceType ≠ kind := by
      rintro rfl
      simp [EdgeKind.isMembership] at hm
    simp [hne]
  · simp
  · next kind =>
    have hs : kind.isSignature := h
    have hne : EdgeKind.instanceType ≠ kind := by
      rintro rfl
      simp [EdgeKind.isSignature] at hs
    simp [hne]
  · simp

end Attachment

namespace Place

theorem Proper.single_of_classType {q : Place} (h : q.Proper) (hk : q.kind? = some .classType) :
    ∃ owner spot, q = .single owner spot := by
  cases q with
  | top => simp [kind?] at hk
  | shared owner name kind =>
      obtain rfl : kind = .classType := Option.some.inj hk
      have hp := h.2
      simp [SymbolKind.isMerged] at hp
  | single owner spot => exact ⟨owner, spot, rfl⟩

/-- What has a name and merges is shared. -/
theorem Proper.eq_shared {q : Place} (h : q.Proper) {kind : SymbolKind} (hk : q.kind? = some kind)
    (hname : q.name ≠ "") {flags : Flags SymbolFlag} (hf : q.Marks flags)
    (hmerged : kind.isMerged ∨ kind = .field ∧ flags.has .accessor) :
    q = .shared q.owner q.name kind := by
  cases q with
  | top => simp [kind?] at hk
  | shared owner name kind' =>
      obtain rfl : kind' = kind := Option.some.inj hk
      rfl
  | single owner spot =>
      obtain rfl : spot.kind = kind := Option.some.inj hk
      obtain ⟨hm, hfield⟩ := h.2.2 hname
      rcases hmerged with hm' | ⟨hk', hacc⟩
      · exact absurd hm' hm
      · obtain ⟨f, hf', hn⟩ := hfield hk'
        exact absurd (hf f hf' ▸ hacc) hn

end Place

namespace Binding

/-- The symbols among which one to merge with is looked for. -/
def candidates (b : Binding) (scope : Option SymbolId) (name : String) : List SymbolId :=
  match scope with
  | some owner => b.graph.children owner
  | none => b.program.globalSymbols name

def canMerge (b : Binding) (name : String) (accept : SymbolKind → Flags SymbolFlag → Bool)
    (id : SymbolId) : Bool :=
  match b.graph.get? id with
  | some s => s.name == name && s.isDeclared && accept s.kind s.flags
  | none => false

theorem mergeable?_eq (b : Binding) (scope : Option SymbolId) (name : String)
    (accept : SymbolKind → Flags SymbolFlag → Bool) : BindM.mergeable? b scope name accept =
      if name.isEmpty then none
      else (b.candidates scope name).find? (b.canMerge name accept) := rfl

namespace Charted

variable {c : Chart} {b : Binding} {x y : SymbolId} {q o : Place} {d : Decl}
  {scope : Option SymbolId} {name : String} {kind : SymbolKind}

/-- A class and its instance side. -/
theorem instanceType? (h : Charted c b) (hs : c.Settled) (hx : c.place x = some q)
    (hk : q.kind? = some .classType) :
    ∃ y, c.place y = some q.instanceSide ∧ b.graph.instanceType? x = some y := by
  obtain ⟨y, hy⟩ := hs.sided hx hk
  refine ⟨y, hy, ?_⟩
  obtain ⟨owner, spot, rfl⟩ := (h.proper hx).single_of_classType hk
  obtain ⟨a, ha⟩ := hs.hung hy
  obtain ⟨r, hr, hacc⟩ := h.attached ha
  obtain rfl := Option.some.inj (hy.symm.trans hr)
  obtain rfl : a = .side := hacc.2
  have hedge : b.graph.hasEdge ⟨x, y, .instanceType⟩ :=
    h.hasEdge_of_joins ⟨y, x, _, _, hy, hx, ha, List.mem_singleton_self _⟩
  have hmem : y ∈ b.graph.targets x .instanceType := h.wellFormed.mem_targets_iff.mpr hedge
  have honly : ∀ z ∈ b.graph.targets x .instanceType, z = y := by
    intro z hz
    have hz := h.wellFormed.mem_targets_iff.mp hz
    obtain ⟨x', y', q', a', hx', hy', ha', he⟩ :=
      (h.joined rfl (.inl (by simp [hx]))).mp hz
    obtain ⟨r', hr', hacc'⟩ := h.attached ha'
    obtain rfl := Option.some.inj (hx'.symm.trans hr')
    obtain ⟨rfl, rfl, rfl⟩ := hacc'.proper.instanceType_mem_edges_iff.mp he
    have hq' := Option.some.inj (hy'.symm.trans hx)
    have hproper := h.proper hx'
    refine h.injective hx' ?_
    cases q' with
    | top => exact absurd hproper (by simp [Place.Proper])
    | shared _ _ _ => obtain ⟨m, hm⟩ := hacc'.2; exact absurd hm (by simp)
    | single owner' spot' =>
        have hside := hproper.2.1 hacc'.2.symm
        rw [hy, hside]
        exact congrArg (fun o => some (Place.instanceSide o)) hq'.symm
  unfold SymbolGraph.instanceType? firstTarget
  cases ht : b.graph.targets x .instanceType with
  | nil => exact absurd (ht ▸ hmem) List.not_mem_nil
  | cons z zs =>
      rw [honly z (ht ▸ List.mem_cons_self)]
      rfl

/-- The symbol that a declaration is put below stands at the place for it. -/
theorem charts_owner (h : Charted c b) (hs : c.Settled) (hscope : c.Holds scope q) (d : Decl) :
    Charts c b (BindM.owner scope d) fun owner c' b' =>
      c = c' ∧ b = b' ∧ c.Holds owner (d.ownerAt q) := by
  unfold BindM.owner
  cases scope with
  | none =>
      obtain rfl : q = .top := hscope
      refine Charts.pure h ⟨rfl, rfl, ?_⟩
      simp [Chart.Holds, Decl.ownerAt, Place.instances?, Place.kind?]
  | some x =>
      have hx : c.place x = some q := hscope
      refine Charts.graph_bind ?_
      have hkind := h.kind? hx
      by_cases hk : q.kind? = some .classType
      · obtain ⟨y, hy, hinst⟩ := h.instanceType? hs hx hk
        by_cases hm : BindM.isInstanceMember d
        · simp only [hm, hkind, hk, beq_self_eq_true, Bool.and_true, if_true, hinst]
          refine Charts.pure h ⟨rfl, rfl, ?_⟩
          simpa [Chart.Holds, Decl.ownerAt, hm, Place.instances?, hk] using hy
        · simp only [hm, Bool.false_and, if_false, Bool.false_eq_true]
          refine Charts.pure h ⟨rfl, rfl, ?_⟩
          simpa [Chart.Holds, Decl.ownerAt, hm] using hx
      · have hne : (b.graph.kind? x == some .classType) = false := by
          rw [hkind]
          exact beq_eq_false_iff_ne.mpr hk
        simp only [hne, Bool.and_false, if_false, Bool.false_eq_true]
        refine Charts.pure h ⟨rfl, rfl, ?_⟩
        simpa [Chart.Holds, Decl.ownerAt, Place.instances?, hk] using hx

/-- The edge back is what makes a child. -/
theorem mem_children_iff (h : Charted c b) (hy : c.place y = some o) :
    x ∈ b.graph.children y ↔ ∃ q membership, c.place x = some q ∧ q.owner = o ∧
      c.attachment x = some (.member membership) := by
  have hjoined := h.joined (e := ⟨x, y, .containedBy⟩) rfl (.inr (by simp [hy]))
  rw [children, h.wellFormed.mem_sources_iff, hjoined]
  constructor
  · rintro ⟨x', y', q, a, hx', hy', ha, he⟩
    obtain ⟨r, -, hacc⟩ := h.attached ha
    obtain ⟨rfl, rfl, m, rfl⟩ := hacc.proper.containedBy_mem_edges_iff.mp he
    exact ⟨q, m, hx', Option.some.inj (hy'.symm.trans hy), ha⟩
  · rintro ⟨q, m, hx, rfl, ha⟩
    obtain ⟨r, -, hacc⟩ := h.attached ha
    exact ⟨x, y, q, _, hx, hy, ha, hacc.proper.containedBy_mem_edges_iff.mpr ⟨rfl, rfl, m, rfl⟩⟩

/-- A declared symbol stands somewhere. -/
theorem exists_place (h : Charted c b) {s : Symbol} (hget : b.graph.get? x = some s)
    (hd : s.isDeclared) : ∃ q, c.place x = some q := by
  refine Option.ne_none_iff_exists'.mp fun hnone => ?_
  have hnil := h.undeclared hnone
  simp only [SymbolGraph.declarations, hget, Option.map_some, Option.getD_some] at hnil
  simp [Symbol.isDeclared, hnil] at hd

theorem isDeclared (h : Charted c b) (hs : c.Settled) (hx : c.place x = some q) {s : Symbol}
    (hget : b.graph.get? x = some s) : s.isDeclared := by
  obtain ⟨d, hd⟩ := hs.backed hx
  have hmem := (h.declarations hx d).mpr hd
  simp only [SymbolGraph.declarations, hget, Option.map_some, Option.getD_some] at hmem
  cases hdecls : s.declarations with
  | nil => rw [hdecls] at hmem; exact absurd hmem List.not_mem_nil
  | cons => simp [Symbol.isDeclared, hdecls]

theorem owner_of_mem_candidates (h : Charted c b) (hscope : c.Holds scope o)
    (hm : x ∈ b.candidates scope name) (hx : c.place x = some q) : q.owner = o := by
  unfold candidates at hm
  cases scope with
  | some y =>
      have hy : c.place y = some o := hscope
      obtain ⟨q', -, hx', ho, -⟩ := (h.mem_children_iff hy).mp hm
      rw [Option.some.inj (hx.symm.trans hx'), ho]
  | none =>
      obtain rfl : o = .top := hscope
      simp only [Program.globalSymbols, List.mem_eraseDups, List.mem_flatMap] at hm
      obtain ⟨u, hu, hm⟩ := hm
      exact ((h.listed hu hm).2 q hx).1

theorem mem_candidates (h : Charted c b) (hs : c.Settled) (hscope : c.Holds scope o)
    (hx : c.place x = some (.shared o name kind)) : x ∈ b.candidates scope name := by
  unfold candidates
  cases scope with
  | some y =>
      have hy : c.place y = some o := hscope
      obtain ⟨a, ha⟩ := hs.hung hx
      obtain ⟨q, hq, hacc⟩ := h.attached ha
      obtain rfl := Option.some.inj (hx.symm.trans hq)
      obtain ⟨m, rfl⟩ := hacc.2
      exact (h.mem_children_iff hy).mpr ⟨_, m, hx, rfl, ha⟩
  | none =>
      obtain rfl : o = .top := hscope
      simp only [Program.globalSymbols, List.mem_eraseDups, List.mem_flatMap]
      obtain ⟨d, hd⟩ := hs.backed hx
      obtain ⟨u, hu, -, hm⟩ := h.global hd hx
      exact ⟨u, hu, hm⟩

/-- A declaration merges with the symbol at the shared place, if one stands there. -/
theorem mergeable?_eq_some_iff (h : Charted c b) (hs : c.Settled) (hscope : c.Holds scope o)
    (hname : name ≠ "") {accept : SymbolKind → Flags SymbolFlag → Bool}
    (hmerged : kind.isMerged ∨ kind = .field)
    (haccept : ∀ k flags, accept k flags ↔ k = kind ∧ (kind = .field → flags.has .accessor)) :
    BindM.mergeable? b scope name accept = some x ↔ c.place x = some (.shared o name kind) := by
  -- What is accepted stands at the place, and the other way round.
  have hcand : ∀ {z s}, b.graph.get? z = some s → (∀ q, c.place z = some q → q.owner = o) →
      b.canMerge name accept z → c.place z = some (.shared o name kind) := by
    intro z s hget howner hz
    simp only [canMerge, hget, Bool.and_eq_true, beq_iff_eq, haccept] at hz
    obtain ⟨⟨hn, hd⟩, hk, hfield⟩ := hz
    obtain ⟨q, hq⟩ := h.exists_place hget hd
    obtain ⟨s', hs', hfit⟩ := h.fits hq
    obtain ⟨s'', hget', rfl⟩ := Option.map_eq_some_iff.mp hs'
    obtain rfl := Option.some.inj (hget.symm.trans hget')
    have hqn : q.name = name := hfit.name.symm.trans hn
    have hqk : q.kind? = some kind := hfit.kind.symm.trans (congrArg some hk)
    have heq := (h.proper hq).eq_shared hqk (hqn ▸ hname) hfit.flags
      (hmerged.imp_right fun hf => ⟨hf, hfield hf⟩)
    rw [hq, heq, howner q hq, hqn]
  have hok : ∀ {z}, c.place z = some (.shared o name kind) → b.canMerge name accept z := by
    intro z hz
    obtain ⟨s', hs', hfit⟩ := h.fits hz
    obtain ⟨s, hget, rfl⟩ := Option.map_eq_some_iff.mp hs'
    simp only [canMerge, hget, Bool.and_eq_true, beq_iff_eq, haccept]
    exact ⟨⟨hfit.name, h.isDeclared hs hz hget⟩, Option.some.inj hfit.kind, hfit.flags⟩
  have hfound : ∀ z, (b.candidates scope name).find? (b.canMerge name accept) = some z →
      c.place z = some (.shared o name kind) := by
    intro z hz
    have hp := List.find?_some hz
    cases hget : b.graph.get? z with
    | none => simp [canMerge, hget] at hp
    | some s =>
        refine hcand hget (fun q hq => ?_) hp
        exact h.owner_of_mem_candidates hscope (List.mem_of_find?_eq_some hz) hq
  rw [mergeable?_eq, if_neg (by simp [hname])]
  refine ⟨hfound x, fun hx => ?_⟩
  have hmem : x ∈ b.candidates scope name := h.mem_candidates hs hscope hx
  obtain ⟨z, hz⟩ := Option.isSome_iff_exists.mp (List.find?_isSome.mpr ⟨x, hmem, hok hx⟩)
  rw [hz, h.injective (hfound z hz) hx]

end Charted

end Binding

end NameBinding
