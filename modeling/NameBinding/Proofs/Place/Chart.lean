import NameBinding.Proofs.Graph.Sound
import NameBinding.Proofs.Place.Basic
import NameBinding.Proofs.Program.WellFormed

/-! # Charts

A chart says at which place each symbol stands, how it hangs on the symbol around it, and which
declarations contribute to which place. What a chart says of a graph is the whole truth, apart from
the edges that come from resolving. -/

namespace NameBinding

open SymbolGraph

/-- Declarations of one name and of the kind share a symbol. -/
def SymbolKind.isMerged : SymbolKind → Bool
  | .module | .dynamicModule | .interface | .function | .method => true
  | _ => false

namespace Attachment

/-- The edges between an owner and a symbol that hangs on it. -/
def edges (owner symbol : SymbolId) : Attachment → List Edge
  | member none => [⟨symbol, owner, .containedBy⟩]
  | member (some kind) => [⟨owner, symbol, kind⟩, ⟨symbol, owner, .containedBy⟩]
  | side => [⟨owner, symbol, .instanceType⟩]
  | signature kind => [⟨owner, symbol, kind⟩]
  | parameter => [⟨owner, symbol, .parameter⟩]

/-- The edge kinds fit. -/
def Proper : Attachment → Prop
  | member (some kind) => kind.isMembership
  | signature kind => kind.isSignature
  | _ => True

variable {a : Attachment} {owner symbol : SymbolId} {e : Edge}

theorem Proper.isStructural (h : a.Proper) (he : e ∈ a.edges owner symbol) :
    e.kind.isStructural := by
  unfold edges at he
  split at he <;> simp only [List.mem_cons, List.not_mem_nil, or_false] at he
  · rw [he]; rfl
  · rcases he with rfl | rfl
    · exact EdgeKind.isStructural_of_isMembership h
    · rfl
  · rw [he]; rfl
  · subst he
    next kind =>
    have hs : kind.isSignature := h
    cases kind <;> simp_all [EdgeKind.isSignature, EdgeKind.isStructural, EdgeKind.isResolution]
  · rw [he]; rfl

/-- The edges join the two symbols. -/
theorem ends_of_mem_edges (he : e ∈ a.edges owner symbol) :
    (e.source = owner ∧ e.target = symbol) ∨ (e.source = symbol ∧ e.target = owner) := by
  unfold edges at he
  split at he <;> simp only [List.mem_cons, List.not_mem_nil, or_false] at he
  · exact .inr (he ▸ ⟨rfl, rfl⟩)
  · rcases he with rfl | rfl
    · exact .inl ⟨rfl, rfl⟩
    · exact .inr ⟨rfl, rfl⟩
  iterate 3 exact .inl (he ▸ ⟨rfl, rfl⟩)

/-- Only members have an edge back. -/
theorem Proper.containedBy_mem_edges_iff (h : a.Proper) {x y : SymbolId} :
    ⟨x, y, .containedBy⟩ ∈ a.edges owner symbol ↔
      x = symbol ∧ y = owner ∧ ∃ membership, a = .member membership := by
  unfold edges
  split
  · simp
  · next kind =>
    have hm : kind.isMembership := h
    have hne : EdgeKind.containedBy ≠ kind := by
      rintro rfl
      simp [EdgeKind.isMembership] at hm
    simp [hne]
  · simp
  · next kind =>
    have hs : kind.isSignature := h
    have hne : EdgeKind.containedBy ≠ kind := by
      rintro rfl
      simp [EdgeKind.isSignature] at hs
    simp [hne]
  · simp

end Attachment

namespace Place

/-- The place says enough: what has a name and a kind that merges is shared, and so are accessors. -/
def Proper : Place → Prop
  | top => False
  | shared _ name kind => name ≠ "" ∧ (kind.isMerged ∨ kind = .field)
  | single owner spot => spot.attachment.Proper ∧
      (spot.attachment = .side → single owner spot = owner.instanceSide) ∧
      (spot.name ≠ "" → ¬spot.kind.isMerged ∧
        (spot.kind = .field → ∃ flags, spot.flags = some flags ∧ ¬flags.has .accessor))

/-- A symbol at the place can hang on its owner in this way. -/
def Accepts : Place → Attachment → Prop
  | top, _ => False
  | shared _ _ _, a => a.Proper ∧ ∃ membership, a = .member membership
  | single _ spot, a => a.Proper ∧ a = spot.attachment

theorem Accepts.proper {q : Place} {a : Attachment} (h : q.Accepts a) : a.Proper := by
  cases q with
  | top => exact absurd h (by simp [Accepts])
  | shared => exact h.1
  | single => exact h.1

/-- The flags of the symbol at the place, as far as the place says. -/
def Marks : Place → Flags SymbolFlag → Prop
  | top, _ => False
  | shared _ _ kind, flags => kind = .field → flags.has .accessor
  | single _ spot, flags => ∀ f, spot.flags = some f → flags = f

/-- The symbol is one for the place. -/
structure Fits (q : Place) (s : Symbol) : Prop where
  name : s.name = q.name
  kind : some s.kind = q.kind?
  flags : q.Marks s.flags

end Place

/-- Where symbols stand. -/
structure Chart where
  place : SymbolId → Option Place
  attachment : SymbolId → Option Attachment
  contributes : DeclId → Place → Prop

namespace Chart

/-- An edge between a symbol and the one that it hangs on. -/
def Joins (c : Chart) (e : Edge) : Prop :=
  ∃ x y q a, c.place x = some q ∧ c.place y = some q.owner ∧ c.attachment x = some a ∧
    e ∈ a.edges y x

theorem Joins.placed {c : Chart} {e : Edge} (h : c.Joins e) :
    (c.place e.source).isSome ∧ (c.place e.target).isSome := by
  obtain ⟨x, y, q, a, hx, hy, -, he⟩ := h
  rcases Attachment.ends_of_mem_edges he with ⟨hs, ht⟩ | ⟨hs, ht⟩ <;> simp [hs, ht, hx, hy]

/-- Owners were there before what stands in them. -/
def Descends (c : Chart) : Prop :=
  ∀ {x y q}, c.place x = some q → c.place y = some q.owner → y < x

/-- A new symbol takes a place. -/
def seat (c : Chart) (x : SymbolId) (q : Place) : Chart :=
  { c with
    place := fun y => if y = x then some q else c.place y
    attachment := fun y => if y = x then none else c.attachment y }

/-- A symbol is hung on its owner. -/
def attach (c : Chart) (x : SymbolId) (a : Attachment) : Chart :=
  { c with attachment := fun y => if y = x then some a else c.attachment y }

/-- A declaration contributes to a place. -/
def contribute (c : Chart) (d : DeclId) (q : Place) : Chart :=
  { c with contributes := fun d' q' => c.contributes d' q' ∨ (d' = d ∧ q' = q) }

end Chart

namespace Binding

/-- The chart is right about a graph and a program. -/
structure Charted (c : Chart) (b : Binding) : Prop where
  program : b.program.WellFormed
  wellFormed : b.graph.WellFormed
  lt_size : ∀ {x q}, c.place x = some q → x < b.graph.size
  injective : ∀ {x y q}, c.place x = some q → c.place y = some q → x = y
  proper : ∀ {x q}, c.place x = some q → q.Proper
  fits : ∀ {x q}, c.place x = some q → ∃ s, b.graph.label? x = some s ∧ q.Fits s
  /-- Symbols list the declarations that contribute to their place. -/
  declarations : ∀ {x q}, c.place x = some q →
    ∀ d, d ∈ b.graph.declarations x ↔ c.contributes d q
  undeclared : ∀ {x}, c.place x = none → b.graph.declarations x = []
  unrepeated : ∀ x, (b.graph.declarations x).Nodup
  /-- Contributions come from units, and fill a place. -/
  filled : ∀ {d q}, c.contributes d q → ∃ x, c.place x = some q
  authored : ∀ {d q}, c.contributes d q → ∃ u ∈ b.program.units, u.id = d.unit ∧
    ∀ owner spot, q = .single owner spot → spot.file = u.path ∧ spot.index = d.index
  owned : ∀ {x q}, c.place x = some q → q.owner = .top ∨ ∃ y, c.place y = some q.owner
  attached : ∀ {x a}, c.attachment x = some a → ∃ q, c.place x = some q ∧ q.Accepts a
  joined : ∀ {e : Edge}, e.kind.isStructural →
    (c.place e.source).isSome ∨ (c.place e.target).isSome → (b.graph.hasEdge e ↔ c.Joins e)
  /-- What the units list at their top stands there. -/
  listed : ∀ {u x name}, u ∈ b.program.units → x ∈ u.topLevelSymbols name →
    x < b.graph.size ∧ ∀ q, c.place x = some q → q.owner = .top ∧ q.name = name
  global : ∀ {d x name kind}, c.contributes d (.shared .top name kind) →
    c.place x = some (.shared .top name kind) →
    ∃ u ∈ b.program.units, u.id = d.unit ∧ x ∈ u.topLevelSymbols name

namespace Charted

variable {c : Chart} {b : Binding} {x y : SymbolId} {q : Place} {d : DeclId} {e : Edge}

theorem name (h : Charted c b) (hx : c.place x = some q) : b.graph.name x = q.name := by
  obtain ⟨s, hs, hq⟩ := h.fits hx
  rw [name_eq, hs]
  exact hq.name

theorem kind? (h : Charted c b) (hx : c.place x = some q) : b.graph.kind? x = q.kind? := by
  obtain ⟨s, hs, hq⟩ := h.fits hx
  rw [kind?_eq, hs]
  exact hq.kind

theorem ne_top (h : Charted c b) (hx : c.place x = some q) : q ≠ .top := by
  rintro rfl
  exact h.proper hx

theorem isStructural (h : Charted c b) (hj : c.Joins e) : e.kind.isStructural := by
  obtain ⟨x, y, q, a, -, -, ha, he⟩ := hj
  obtain ⟨r, -, hacc⟩ := h.attached ha
  exact hacc.proper.isStructural he

/-- What the chart joins is joined in the graph. -/
theorem hasEdge_of_joins (h : Charted c b) (hj : c.Joins e) : b.graph.hasEdge e :=
  (h.joined (h.isStructural hj) (.inl hj.placed.1)).mpr hj

/-- A change of the graph that no chart sees. -/
theorem setGraph (h : Charted c b) {g : SymbolGraph} (hw : g.WellFormed)
    (hsize : b.graph.size ≤ g.size)
    (hlabel : ∀ x, x < b.graph.size → g.label? x = b.graph.label? x)
    (hdecl : ∀ x, g.declarations x = b.graph.declarations x)
    (hedge : ∀ e : Edge, e.kind.isStructural → e.source < b.graph.size ∨ e.target < b.graph.size →
      (g.hasEdge e ↔ b.graph.hasEdge e)) : Charted c ⟨g, b.program⟩ :=
  { h with
    wellFormed := hw
    lt_size := fun hx => Nat.lt_of_lt_of_le (h.lt_size hx) hsize
    fits := fun hx => by
      rw [hlabel _ (h.lt_size hx)]
      exact h.fits hx
    declarations := fun hx d => by
      rw [hdecl]
      exact h.declarations hx d
    undeclared := fun hx => (hdecl _).trans (h.undeclared hx)
    unrepeated := fun x => hdecl x ▸ h.unrepeated x
    listed := fun hu hx =>
      ⟨Nat.lt_of_lt_of_le (h.listed hu hx).1 hsize, (h.listed hu hx).2⟩
    joined := fun {e} hk hends => by
      have hlt : e.source < b.graph.size ∨ e.target < b.graph.size := by
        rcases hends with hs | ht
        · obtain ⟨q, hq⟩ := Option.isSome_iff_exists.mp hs
          exact .inl (h.lt_size hq)
        · obtain ⟨q, hq⟩ := Option.isSome_iff_exists.mp ht
          exact .inr (h.lt_size hq)
      rw [hedge e hk hlt]
      exact h.joined hk hends }

/-! ### Single changes -/

/-- A new symbol at a place where none stands, inside a symbol that stands. -/
theorem seat (h : Charted c b) {kind : SymbolKind} {flags : Flags SymbolFlag}
    (hnew : ∀ y, c.place y ≠ some q) (hp : q.Proper) (hkind : q.kind? = some kind)
    (hmarks : q.Marks flags) (howned : q.owner = .top ∨ ∃ y, c.place y = some q.owner) :
    Charted (c.seat b.graph.size q) ⟨b.graph.alloc q.name kind flags, b.program⟩ := by
  have hne : ∀ {y r}, c.place y = some r → y ≠ b.graph.size := fun hy =>
    Nat.ne_of_lt (h.lt_size hy)
  have hold : ∀ {y r}, (c.seat b.graph.size q).place y = some r →
      (y = b.graph.size ∧ r = q) ∨ c.place y = some r := by
    intro y r hy
    by_cases hyx : y = b.graph.size
    · simp only [Chart.seat, hyx, if_true, Option.some.injEq] at hy
      exact .inl ⟨hyx, hy.symm⟩
    · simp only [Chart.seat, hyx, if_false] at hy
      exact .inr hy
  have hkeep : ∀ {y r}, c.place y = some r → (c.seat b.graph.size q).place y = some r := by
    intro y r hy
    simp only [Chart.seat, hne hy, if_false]
    exact hy
  have hfilled : ∀ d, ¬c.contributes d q := by
    intro d hd
    obtain ⟨y, hy⟩ := h.filled hd
    exact hnew y hy
  have hjoins : ∀ e, (c.seat b.graph.size q).Joins e ↔ c.Joins e := by
    intro e
    constructor
    · rintro ⟨x, y, r, a, hx, hy, ha, he⟩
      by_cases hxn : x = b.graph.size
      · simp [Chart.seat, hxn] at ha
      simp only [Chart.seat, hxn, if_false] at hx ha
      rcases hold hy with ⟨rfl, hr⟩ | hy
      · rcases h.owned hx with ht | ⟨y', hy'⟩
        · rw [ht] at hr
          exact absurd (hr ▸ hp) (by simp [Place.Proper])
        · exact absurd (hr ▸ hy') (hnew y')
      · exact ⟨x, y, r, a, hx, hy, ha, he⟩
    · rintro ⟨x, y, r, a, hx, hy, ha, he⟩
      refine ⟨x, y, r, a, hkeep hx, hkeep hy, ?_, he⟩
      simp only [Chart.seat, hne hx, if_false]
      exact ha
  constructor
  · exact h.program
  · exact h.wellFormed.alloc _ _ _
  · intro y r hy
    rw [size_alloc]
    rcases hold hy with ⟨rfl, -⟩ | hy
    · exact Nat.lt_succ_self _
    · exact Nat.lt_succ_of_lt (h.lt_size hy)
  · intro y z r hy hz
    rcases hold hy with ⟨rfl, hr⟩ | hy'
    · rcases hold hz with ⟨rfl, -⟩ | hz
      · rfl
      · exact absurd (hr ▸ hz) (hnew z)
    · rcases hold hz with ⟨rfl, hr⟩ | hz
      · exact absurd (hr ▸ hy') (hnew y)
      · exact h.injective hy' hz
  · intro y r hy
    rcases hold hy with ⟨-, rfl⟩ | hy
    · exact hp
    · exact h.proper hy
  · intro y r hy
    rw [label?_alloc]
    rcases hold hy with ⟨rfl, rfl⟩ | hy
    · exact ⟨_, if_pos rfl, rfl, hkind.symm, hmarks⟩
    · rw [if_neg (hne hy)]
      exact h.fits hy
  · intro y r hy d
    rw [declarations_alloc]
    rcases hold hy with ⟨rfl, rfl⟩ | hy
    · rw [declarations_eq_nil (Nat.le_refl _)]
      simp [Chart.seat, hfilled d]
    · exact h.declarations hy d
  · intro y hy
    rw [declarations_alloc]
    by_cases hyx : y = b.graph.size
    · simp [Chart.seat, hyx] at hy
    · simp only [Chart.seat, hyx, if_false] at hy
      exact h.undeclared hy
  · intro y
    rw [declarations_alloc]
    exact h.unrepeated y
  · intro d r hd
    obtain ⟨y, hy⟩ := h.filled hd
    exact ⟨y, hkeep hy⟩
  · exact h.authored
  · intro y r hy
    rcases hold hy with ⟨-, rfl⟩ | hy
    · rcases howned with ht | ⟨z, hz⟩
      · exact .inl ht
      · exact .inr ⟨z, hkeep hz⟩
    · rcases h.owned hy with ht | ⟨z, hz⟩
      · exact .inl ht
      · exact .inr ⟨z, hkeep hz⟩
  · intro y a ha
    by_cases hyx : y = b.graph.size
    · simp [Chart.seat, hyx] at ha
    · simp only [Chart.seat, hyx, if_false] at ha
      obtain ⟨r, hr, hacc⟩ := h.attached ha
      exact ⟨r, hkeep hr, hacc⟩
  · intro e hk hends
    have hedge : (b.graph.alloc q.name kind flags).hasEdge e ↔ b.graph.hasEdge e := by
      simp [hasEdge]
    rw [hedge, hjoins]
    by_cases hends' : (c.place e.source).isSome ∨ (c.place e.target).isSome
    · exact h.joined hk hends'
    · rw [not_or] at hends'
      constructor
      · intro he
        obtain ⟨hs, ht⟩ := h.wellFormed.lt_size he
        simp only [Chart.seat, Nat.ne_of_lt hs, Nat.ne_of_lt ht, if_false] at hends
        exact absurd hends (not_or.mpr hends')
      · exact fun hj => absurd hj.placed.1 hends'.1
  · intro u y name hu hy
    obtain ⟨hlt, hr⟩ := h.listed hu hy
    refine ⟨by rw [size_alloc]; exact Nat.lt_succ_of_lt hlt, fun r hr' => ?_⟩
    rcases hold hr' with ⟨rfl, -⟩ | hr'
    · exact absurd hlt (Nat.lt_irrefl _)
    · exact hr r hr'
  · intro d y name kind' hd hy
    rcases hold hy with ⟨-, rfl⟩ | hy
    · exact absurd hd (hfilled d)
    · exact h.global hd hy

/-- A symbol is hung on the one around it, by edges between the two. -/
theorem attach (h : Charted c b) {a : Attachment} {g : SymbolGraph} (hx : c.place x = some q)
    (hnone : c.attachment x = none) (hacc : q.Accepts a) (hy : c.place y = some q.owner)
    (hw : g.WellFormed) (hlabel : ∀ z, g.label? z = b.graph.label? z)
    (hedge : ∀ e, g.hasEdge e ↔ b.graph.hasEdge e ∨ e ∈ a.edges y x) :
    Charted (c.attach x a) ⟨g, b.program⟩ := by
  have hjoins : ∀ e, (c.attach x a).Joins e ↔ c.Joins e ∨ e ∈ a.edges y x := by
    intro e
    constructor
    · rintro ⟨x', y', r, a', hx', hy', ha', he⟩
      by_cases hxx : x' = x
      · subst hxx
        simp only [Chart.attach, if_true, Option.some.injEq] at ha'
        obtain rfl : r = q := Option.some.inj (hx'.symm.trans hx)
        obtain rfl : y' = y := h.injective hy' hy
        exact .inr (ha' ▸ he)
      · simp only [Chart.attach, hxx, if_false] at ha'
        exact .inl ⟨x', y', r, a', hx', hy', ha', he⟩
    · rintro (⟨x', y', r, a', hx', hy', ha', he⟩ | he)
      · have hxx : x' ≠ x := by
          rintro rfl
          rw [hnone] at ha'
          exact absurd ha' (by simp)
        exact ⟨x', y', r, a', hx', hy', by simpa only [Chart.attach, hxx, if_false], he⟩
      · exact ⟨x, y, q, a, hx, hy, by simp [Chart.attach], he⟩
  have hsize : g.size = b.graph.size := size_eq_of_label? hlabel
  exact {
    h with
    wellFormed := hw
    lt_size := fun hz => hsize ▸ h.lt_size hz
    fits := fun {z r} hz => hlabel z ▸ h.fits hz
    declarations := fun {z r} hz d => declarations_congr (hlabel z) ▸ h.declarations hz d
    undeclared := fun {z} hz => declarations_congr (hlabel z) ▸ h.undeclared hz
    unrepeated := fun z => declarations_congr (hlabel z) ▸ h.unrepeated z
    listed := fun hu hz => hsize ▸ h.listed hu hz
    attached := fun {z a'} ha' => by
      by_cases hzx : z = x
      · simp only [Chart.attach, hzx, if_true, Option.some.injEq] at ha'
        exact ⟨q, hzx ▸ hx, ha' ▸ hacc⟩
      · simp only [Chart.attach, hzx, if_false] at ha'
        exact h.attached ha'
    joined := fun {e} hk hends => by
      rw [hedge, hjoins]
      exact or_congr_left (h.joined hk hends) }

/-- At the top there is nothing to hang on. -/
theorem attachTop (h : Charted c b) {a : Attachment} (hx : c.place x = some q)
    (htop : q.owner = .top) (hnone : c.attachment x = none) (hacc : q.Accepts a) :
    Charted (c.attach x a) b := by
  have hjoins : ∀ e, (c.attach x a).Joins e ↔ c.Joins e := by
    intro e
    constructor
    · rintro ⟨x', y', r, a', hx', hy', ha', he⟩
      have hxx : x' ≠ x := by
        rintro rfl
        obtain rfl : r = q := Option.some.inj (hx'.symm.trans hx)
        exact h.ne_top hy' htop
      simp only [Chart.attach, hxx, if_false] at ha'
      exact ⟨x', y', r, a', hx', hy', ha', he⟩
    · rintro ⟨x', y', r, a', hx', hy', ha', he⟩
      have hxx : x' ≠ x := by
        rintro rfl
        rw [hnone] at ha'
        exact absurd ha' (by simp)
      exact ⟨x', y', r, a', hx', hy', by simpa only [Chart.attach, hxx, if_false], he⟩
  exact {
    h with
    attached := fun {z a'} ha' => by
      by_cases hzx : z = x
      · simp only [Chart.attach, hzx, if_true, Option.some.injEq] at ha'
        exact ⟨q, hzx ▸ hx, ha' ▸ hacc⟩
      · simp only [Chart.attach, hzx, if_false] at ha'
        exact h.attached ha'
    joined := fun {e} hk hends => (h.joined hk hends).trans (hjoins e).symm }

/-- A declaration is listed on the symbol at a place that it contributes to. -/
theorem contribute (h : Charted c b) (hx : c.place x = some q)
    (hauthor : ∃ u ∈ b.program.units, u.id = d.unit ∧
      (∀ owner spot, q = .single owner spot → spot.file = u.path ∧ spot.index = d.index) ∧
      ∀ name kind, q = .shared .top name kind → x ∈ u.topLevelSymbols name) :
    Charted (c.contribute d q) ⟨b.graph.declare x d, b.program⟩ := by
  have hedges : ∀ e, (b.graph.declare x d).hasEdge e ↔ b.graph.hasEdge e := by
    intro e
    simp [hasEdge]
  have hlisted : ∀ {z d'}, d' ∈ (b.graph.declare x d).declarations z ↔
      d' ∈ b.graph.declarations z ∨ z = x ∧ d' = d := by
    intro z d'
    rw [mem_declarations_declare]
    constructor
    · rintro (hd | ⟨rfl, -, rfl⟩)
      · exact .inl hd
      · exact .inr ⟨rfl, rfl⟩
    · rintro (hd | ⟨rfl, rfl⟩)
      · exact .inl hd
      · exact .inr ⟨rfl, h.lt_size hx, rfl⟩
  obtain ⟨u, hu, hid, hspot, htop⟩ := hauthor
  exact {
    h with
    wellFormed := h.wellFormed.of_edges_eq (outgoing_declare _ _ _) (incoming_declare _ _ _)
    lt_size := fun hz => by
      rw [size_declare]
      exact h.lt_size hz
    fits := fun {z r} hz => by
      obtain ⟨s, hs, hfit⟩ := h.fits hz
      obtain ⟨s, hget, rfl⟩ := Option.map_eq_some_iff.mp hs
      simp only [label?, get?_declare, hget, Option.map_some]
      split
      · split
        · exact ⟨_, rfl, hfit⟩
        · exact ⟨_, rfl, ⟨hfit.name, hfit.kind, hfit.flags⟩⟩
      · exact ⟨_, rfl, hfit⟩
    declarations := fun {z r} hz d' => by
      rw [hlisted, h.declarations hz d']
      refine or_congr_right ⟨?_, ?_⟩
      · rintro ⟨rfl, rfl⟩
        exact ⟨rfl, Option.some.inj (hz.symm.trans hx)⟩
      · rintro ⟨rfl, rfl⟩
        exact ⟨h.injective hz hx, rfl⟩
    undeclared := fun {z} hz => by
      refine List.eq_nil_iff_forall_not_mem.mpr fun d' hd' => ?_
      rcases hlisted.mp hd' with hd' | ⟨rfl, -⟩
      · rw [h.undeclared hz] at hd'
        exact absurd hd' List.not_mem_nil
      · exact absurd (hx.symm.trans hz) (by simp)
    unrepeated := fun z => nodup_declarations_declare (h.unrepeated z)
    filled := by
      rintro d' r (hd' | ⟨rfl, rfl⟩)
      · exact h.filled hd'
      · exact ⟨x, hx⟩
    authored := by
      rintro d' r (hd' | ⟨rfl, rfl⟩)
      · exact h.authored hd'
      · exact ⟨u, hu, hid, hspot⟩
    joined := fun {e} hk hends => (hedges e).trans (h.joined hk hends)
    listed := fun hv hz => by
      rw [size_declare]
      exact h.listed hv hz
    global := by
      rintro d' z name kind (hd' | ⟨rfl, hr⟩) hz
      · exact h.global hd' hz
      · obtain rfl := h.injective hz (hr ▸ hx)
        exact ⟨u, hu, hid, htop name kind hr.symm⟩ }

end Charted

end Binding

end NameBinding
