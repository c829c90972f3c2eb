import NameBinding.Proofs.Bind.Declarations
import NameBinding.Proofs.Place.Settled

/-! # Symbols take their places

How single symbols come: those that a declaration makes alone, those that it shares, and those of a
signature and its parameters. -/

namespace NameBinding

open SymbolGraph

namespace Chart

/-- No symbol but perhaps one is half made. -/
structure SettledBut (c : Chart) (s : SymbolId) : Prop where
  hung : ∀ {x q}, c.place x = some q → x ≠ s → ∃ a, c.attachment x = some a
  backed : ∀ {x q}, c.place x = some q → x ≠ s → ∃ d, c.contributes d q
  sided : ∀ {x q}, c.place x = some q → q.kind? = some .classType →
    ∃ y, c.place y = some q.instanceSide

/-- The declaration of a unit contributes to some more places. -/
def Adds (c c' : Chart) (unit : UnitId) (new : List (Nat × Place)) : Prop :=
  ∀ d q, c'.contributes d q ↔ c.contributes d q ∨ (d.unit = unit ∧ (d.index, q) ∈ new)

variable {c c' c'' : Chart} {x s : SymbolId} {q : Place} {a : Attachment} {d : DeclId}
  {unit : UnitId} {new new' : List (Nat × Place)}

theorem Adds.refl (c : Chart) (unit : UnitId) : c.Adds c unit [] := by
  intro d q
  simp

theorem Adds.trans (h : c.Adds c' unit new) (h' : c'.Adds c'' unit new') :
    c.Adds c'' unit (new ++ new') := by
  intro d q
  rw [h' d q, h d q, List.mem_append]
  tauto

theorem adds_contribute (c : Chart) (d : DeclId) (q : Place) :
    c.Adds (c.contribute d q) d.unit [(d.index, q)] := by
  intro d' q'
  obtain ⟨unit, index⟩ := d
  obtain ⟨unit', index'⟩ := d'
  simp only [contribute, List.mem_singleton, Prod.mk.injEq, DeclId.mk.injEq]
  tauto

theorem Settled.settledBut (h : c.Settled) (s : SymbolId) : c.SettledBut s :=
  ⟨fun hx _ => h.hung hx, fun hx _ => h.backed hx, h.sided⟩

/-- The last symbol is finished. -/
theorem SettledBut.settled (h : c.SettledBut s) (hs : c.place s = some q)
    (hung : ∃ a, c.attachment s = some a) (backed : ∃ d, c.contributes d q) : c.Settled where
  hung {x r} hx := by
    by_cases hxs : x = s
    · exact hxs ▸ hung
    · exact h.hung hx hxs
  backed {x r} hx := by
    by_cases hxs : x = s
    · subst hxs
      obtain rfl := Option.some.inj (hx.symm.trans hs)
      exact backed
    · exact h.backed hx hxs
  sided := h.sided

theorem SettledBut.contribute (h : c.SettledBut s) (d : DeclId) (q : Place) :
    (c.contribute d q).SettledBut s where
  hung := h.hung
  backed hx hxs := by
    obtain ⟨d', hd'⟩ := h.backed hx hxs
    exact ⟨d', .inl hd'⟩
  sided := h.sided

theorem SettledBut.attach (h : c.SettledBut s) (x : SymbolId) (a : Attachment) :
    (c.attach x a).SettledBut s where
  hung {y r} hy hys := by
    by_cases hyx : y = x
    · exact ⟨a, by simp [Chart.attach, hyx]⟩
    · simpa only [Chart.attach, hyx, if_false] using h.hung hy hys
  backed := h.backed
  sided := h.sided

/-- A new symbol is the one that is half made. -/
theorem Settled.seat (h : c.Settled) {n : Nat} (hlt : ∀ {x q}, c.place x = some q → x < n)
    (hk : q.kind? ≠ some .classType) : (c.seat n q).SettledBut n := by
  have hold : ∀ {y r}, (c.seat n q).place y = some r → y ≠ n → c.place y = some r := by
    intro y r hy hyn
    simpa only [Chart.seat, hyn, if_false] using hy
  constructor
  · intro y r hy hyn
    obtain ⟨a, ha⟩ := h.hung (hold hy hyn)
    exact ⟨a, by simpa only [Chart.seat, hyn, if_false] using ha⟩
  · intro y r hy hyn
    exact h.backed (hold hy hyn)
  · intro y r hy hr
    by_cases hyn : y = n
    · simp only [Chart.seat, hyn, if_true, Option.some.injEq] at hy
      exact absurd (hy ▸ hr) hk
    · obtain ⟨z, hz⟩ := h.sided (hold hy hyn) hr
      exact ⟨z, by simpa only [Chart.seat, Nat.ne_of_lt (hlt hz), if_false] using hz⟩

/-- A symbol is added while another one is half made. -/
theorem SettledBut.add (h : c.SettledBut s) {n : Nat}
    (hlt : ∀ {x q}, c.place x = some q → x < n) (hk : q.kind? ≠ some .classType) (d : DeclId)
    (a : Attachment) : (((c.seat n q).contribute d q).attach n a).SettledBut s := by
  have hold : ∀ {y r}, (c.seat n q).place y = some r → y ≠ n → c.place y = some r := by
    intro y r hy hyn
    simpa only [Chart.seat, hyn, if_false] using hy
  constructor
  · intro y r hy hys
    by_cases hyn : y = n
    · exact ⟨a, by simp [Chart.attach, hyn]⟩
    · obtain ⟨a', ha'⟩ := h.hung (hold hy hyn) hys
      exact ⟨a', by simpa only [Chart.attach, Chart.contribute, Chart.seat, hyn, if_false] using ha'⟩
  · intro y r hy hys
    by_cases hyn : y = n
    · subst hyn
      have hr : q = r := by simpa [Chart.attach, Chart.contribute, Chart.seat] using hy
      exact ⟨d, .inr ⟨rfl, hr.symm⟩⟩
    · obtain ⟨d', hd'⟩ := h.backed (hold hy hyn) hys
      exact ⟨d', .inl hd'⟩
  · intro y r hy hr
    by_cases hyn : y = n
    · subst hyn
      have hqr : q = r := by simpa [Chart.attach, Chart.contribute, Chart.seat] using hy
      exact absurd (hqr ▸ hr) hk
    · obtain ⟨z, hz⟩ := h.sided (hold hy hyn) hr
      refine ⟨z, ?_⟩
      simpa only [Chart.attach, Chart.contribute, Chart.seat, Nat.ne_of_lt (hlt hz), if_false] using hz

end Chart

namespace Binding

/-- The declaration stands in a unit of the program with the given path. -/
structure Knows (b : Binding) (file : String) (d : Decl) : Prop where
  decl : ∃ x, b.program.decl? d.id = some x ∧ x.unbind = d.unbind
  unit : ∃ u ∈ b.program.units, u.id = d.id.unit ∧ u.path = file

variable {c c' : Chart} {b b' : Binding} {x y : SymbolId} {q o : Place} {d : Decl} {file : String}

theorem Knows.of_text (h : b.Knows file d) (ht : b'.program.text = b.program.text) :
    b'.Knows file d where
  decl := by
    obtain ⟨x, hx, hd⟩ := h.decl
    obtain ⟨x', hx', hxx⟩ := Program.exists_decl?_of_text_eq ht hx
    exact ⟨x', hx', hxx.trans hd⟩
  unit := by
    obtain ⟨u, hu, hid, hpath⟩ := h.unit
    obtain ⟨u', hu', hu''⟩ := Program.exists_of_text_eq ht hu
    have hid' : u'.text.id = u.text.id := congrArg (fun t : CompilationUnit => t.id) hu''
    have hpath' : u'.text.path = u.text.path := congrArg (fun t : CompilationUnit => t.path) hu''
    exact ⟨u', hu', Eq.trans hid' hid, Eq.trans hpath' hpath⟩

/-- The declaration is noted with the kind of its symbol. -/
theorem Knows.named (h : b.Knows file d) (hk : q.kind? = d.symbolKind?) :
    ∃ y, b.program.decl? d.id = some y ∧ q.kind? = y.symbolKind? := by
  obtain ⟨y, hy, heq⟩ := h.decl
  refine ⟨y, hy, hk.trans ?_⟩
  rw [← Decl.symbolKind?_unbind y, heq, Decl.symbolKind?_unbind]

/-- A place of a declaration that did not contribute to it is empty. -/
theorem Charted.place_ne_single (h : Charted c b) (hk : b.Knows file d) {spot : Spot}
    (hfile : spot.file = file) (hindex : spot.index = d.id.index)
    (hbacked : ∀ x, c.place x = some (.single o spot) → ∃ d', c.contributes d' (.single o spot))
    (hunused : ¬c.contributes d.id (.single o spot)) (x : SymbolId) :
    c.place x ≠ some (.single o spot) := by
  intro hx
  obtain ⟨d', hd'⟩ := hbacked x hx
  obtain ⟨u', hu', hid', hspot⟩ := h.authored hd'
  obtain ⟨u, hu, hid, hpath⟩ := hk.unit
  obtain ⟨hfile', hindex'⟩ := hspot o spot rfl
  have huu : u' = u := h.program.eq_of_path hu' hu (by rw [← hfile', hfile, hpath])
  have hdd : d' = d.id := by
    obtain ⟨unit, index⟩ := d'
    cases hd : d.id with
    | mk unit' index' =>
        simp only [hd] at hid hindex
        simp only at hid' hindex'
        rw [DeclId.mk.injEq]
        exact ⟨by rw [← hid', huu, hid], by rw [← hindex', hindex]⟩
  exact hunused (hdd ▸ hd')

/-! ### Hanging a symbol on its owner -/

theorem proper_attachmentAt (d : Decl) (o : Place) : (d.attachmentAt o).Proper := by
  unfold Decl.attachmentAt
  split
  · exact True.intro
  · cases hm : o.kind?.bind (BindM.membership? d) with
    | none => exact True.intro
    | some edge =>
        obtain ⟨_, -, hedge⟩ := Option.bind_eq_some_iff.mp hm
        exact isMembership_of_membership? hedge

/-- A symbol without an owner is listed at the top, if it has a name. -/
theorem Charted.charts_attach (h : Charted c b) (unit : UnitId) {owner : Option SymbolId}
    (hx : c.place x = some q) (hnone : c.attachment x = none) (howner : c.Holds owner q.owner)
    (hname : q.name = d.name) (hacc : q.Accepts (d.attachmentAt q.owner)) :
    Charts c b (BindM.attach unit owner x d) fun _ c' b' =>
      c' = c.attach x (d.attachmentAt q.owner) ∧ (q.owner = .top → d.name ≠ "" →
        ∀ u ∈ b'.program.units, u.id = unit → x ∈ u.topLevelSymbols d.name) := by
  unfold BindM.attach
  cases owner with
  | none =>
      have htop : q.owner = .top := howner
      have hc := h.attachTop hx htop hnone hacc
      refine Charts.rechart (c.attach x (d.attachmentAt q.owner)) hc rfl ?_
      dsimp only
      split
      · rw [← hname]
        exact (hc.charts_addTopLevel unit hx htop).weaken fun _ c' b' _ ⟨hc', hlist⟩ =>
          ⟨hc', fun _ _ => hlist⟩
      · next hempty =>
        refine Charts.pure hc ⟨rfl, fun _ hne => absurd ?_ hempty⟩
        simpa using hne
  | some y =>
      have hy : c.place y = some q.owner := howner
      refine Charts.graph_bind ?_
      rw [h.kind? hy]
      have hne : q.owner ≠ .top := h.ne_top hy
      have hattach : d.attachmentAt q.owner =
          .member (if d.name.isEmpty then none else q.owner.kind?.bind (BindM.membership? d)) := rfl
      have hp := proper_attachmentAt d q.owner
      split
      · next kind hkind =>
        rw [hkind] at hattach
        rw [hattach] at hp hacc ⊢
        have hm : kind.isMembership := hp
        refine (h.charts_link (e := ⟨y, x, kind⟩) hx hnone hacc hy fun e' => ?_).weaken ?_
        · simp [Attachment.edges, hm, Edge.backward]
        · exact fun _ c' b' _ hq => ⟨hq.1, fun ht => absurd ht hne⟩
      · next hkind =>
        rw [hkind] at hattach
        rw [hattach] at hacc ⊢
        refine (h.charts_link (e := ⟨x, y, .containedBy⟩) hx hnone hacc hy fun e' => ?_).weaken ?_
        · simp [Attachment.edges, EdgeKind.isMembership]
        · exact fun _ c' b' _ hq => ⟨hq.1, fun ht => absurd ht hne⟩

/-! ### Sharing a symbol -/

theorem owned_of_holds {owner : Option SymbolId} (howner : c.Holds owner o) :
    o = .top ∨ ∃ y, c.place y = some o := by
  cases owner with
  | none => exact .inl howner
  | some y => exact .inr ⟨y, howner⟩

section Merged

variable {kind : SymbolKind}

theorem kind?_mergedAt : (d.mergedAt file o kind).kind? = some kind := by
  unfold Decl.mergedAt
  split <;> rfl

theorem name_mergedAt : (d.mergedAt file o kind).name = d.name := by
  unfold Decl.mergedAt
  split <;> rfl

theorem owner_mergedAt : (d.mergedAt file o kind).owner = o := by
  unfold Decl.mergedAt
  split <;> rfl

theorem mergedAt_eq_shared {o' : Place} {name : String} {k : SymbolKind}
    (h : d.mergedAt file o kind = .shared o' name k) : o = o' ∧ name = d.name ∧ d.name ≠ "" := by
  have hname : d.name ≠ "" := by
    rintro hempty
    simp [Decl.mergedAt, Decl.singleAt, hempty] at h
  have hshared : d.mergedAt file o kind = .shared o d.name kind := by simp [Decl.mergedAt, hname]
  obtain ⟨ho, hn, -⟩ := Place.shared.inj (hshared.symm.trans h)
  exact ⟨ho, hn.symm, hname⟩

theorem proper_mergedAt (hmerged : kind.isMerged ∨ kind = .field) :
    (d.mergedAt file o kind).Proper := by
  unfold Decl.mergedAt
  split
  · next hempty =>
    refine ⟨proper_attachmentAt d o, fun hside => absurd hside (by simp [Decl.attachmentAt]), ?_⟩
    exact fun hname => absurd (by simpa using hempty) hname
  · next hempty => exact ⟨by simpa using hempty, hmerged⟩

theorem accepts_mergedAt : (d.mergedAt file o kind).Accepts (d.attachmentAt o) := by
  unfold Decl.mergedAt
  split
  · exact ⟨proper_attachmentAt d o, rfl⟩
  · exact ⟨proper_attachmentAt d o, _, rfl⟩

theorem marks_mergedAt (hflag : kind = .field → d.has .accessor) :
    (d.mergedAt file o kind).Marks d.flags.toSymbolFlags := by
  unfold Decl.mergedAt
  split
  · exact fun f hf => Option.some.inj hf
  · intro hk
    have hacc : d.flags.has .accessor := hflag hk
    simp [Flags.toSymbolFlags, Flags.has_carry, hacc, Flag.bit]

variable {scope : Option SymbolId} {accept : SymbolKind → Flags SymbolFlag → Bool}

/-- A declaration gets the symbol at its shared place. It still has to be listed there. -/
theorem Charted.charts_mergeOrCreate (h : Charted c b) (hs : c.Settled) (hscope : c.Holds scope q)
    (hk : b.Knows file d) (hunused : ∀ r, ¬c.contributes d.id r)
    (hmerged : kind.isMerged ∨ kind = .field)
    (haccept : ∀ k flags, accept k flags ↔ k = kind ∧ (kind = .field → flags.has .accessor))
    (hflag : kind = .field → d.has .accessor) :
    Charts c b (BindM.mergeOrCreate d.id.unit scope d kind accept) fun x c' b' =>
      c'.place x = some (d.mergedAt file (d.ownerAt q) kind) ∧ c'.SettledBut x ∧
        (∃ a, c'.attachment x = some a) ∧ (∀ d' r, c'.contributes d' r ↔ c.contributes d' r) ∧
        ∀ name k, d.mergedAt file (d.ownerAt q) kind = .shared .top name k →
          ∀ u ∈ b'.program.units, u.id = d.id.unit → x ∈ u.topLevelSymbols name := by
  unfold BindM.mergeOrCreate
  refine (h.charts_owner hs hscope d).bind ?_
  rintro owner _ _ - ⟨rfl, rfl, howner⟩
  refine Charts.get_bind ?_
  split
  · next x hx =>
    have hname : d.name ≠ "" := by
      rintro hempty
      simp [BindM.mergeable?, hempty] at hx
    have hplace := (h.mergeable?_eq_some_iff hs howner hname hmerged haccept).mp hx
    have hq : d.mergedAt file (d.ownerAt q) kind = .shared (d.ownerAt q) d.name kind := by
      simp [Decl.mergedAt, hname]
    rw [← hq] at hplace
    dsimp only
    split
    · next hnone =>
      have htop : d.ownerAt q = .top := by
        cases owner with
        | none => exact howner
        | some y => simp at hnone
      have hstep := h.charts_addTopLevel d.id.unit hplace (owner_mergedAt.trans htop)
      rw [name_mergedAt] at hstep
      refine hstep.bind ?_
      rintro _ c' b' hl ⟨rfl, hlist⟩
      refine Charts.pure hl.charted ⟨hplace, hs.settledBut x, hs.hung hplace, fun _ _ => .rfl, ?_⟩
      intro name k heq
      obtain ⟨-, rfl, -⟩ := mergedAt_eq_shared heq
      exact hlist
    · next hsome =>
      refine Charts.pure h ⟨hplace, hs.settledBut x, hs.hung hplace, fun _ _ => .rfl, ?_⟩
      intro name k heq
      obtain ⟨htop, -, -⟩ := mergedAt_eq_shared heq
      cases owner with
      | none => simp at hsome
      | some y => exact absurd htop (h.ne_top howner)
  · next hx =>
    have hnew : ∀ y, c.place y ≠ some (d.mergedAt file (d.ownerAt q) kind) := by
      intro y
      by_cases hname : d.name = ""
      · have hq : d.mergedAt file (d.ownerAt q) kind = d.singleAt file (d.ownerAt q) kind := by
          simp [Decl.mergedAt, hname]
        rw [hq]
        exact h.place_ne_single hk rfl rfl (fun _ hz => hs.backed hz) (hunused _) y
      · have hq : d.mergedAt file (d.ownerAt q) kind = .shared (d.ownerAt q) d.name kind := by
          simp [Decl.mergedAt, hname]
        rw [hq]
        intro hy
        have := (h.mergeable?_eq_some_iff hs howner hname hmerged haccept).mpr hy
        rw [hx] at this
        exact absurd this (by simp)
    have halloc := h.charts_alloc hnew (proper_mergedAt hmerged) kind?_mergedAt
      (marks_mergedAt hflag) (by rw [owner_mergedAt]; exact owned_of_holds howner)
    rw [name_mergedAt] at halloc
    refine halloc.bind ?_
    rintro x c₁ b₁ hl ⟨rfl, rfl, hp⟩
    have hplace : (c.seat b.graph.size (d.mergedAt file (d.ownerAt q) kind)).place b.graph.size =
        some (d.mergedAt file (d.ownerAt q) kind) := by simp [Chart.seat]
    have hbut := (hs.seat (q := d.mergedAt file (d.ownerAt q) kind) h.lt_size
      (by rw [kind?_mergedAt]; rintro heq; simp_all [SymbolKind.isMerged]))
    refine (hl.charted.charts_attach d.id.unit hplace (by simp [Chart.seat]) ?_ name_mergedAt
      (owner_mergedAt ▸ accepts_mergedAt)).bind ?_
    · rw [owner_mergedAt]
      exact howner.mono hl.place
    · rintro _ c₂ b₂ hl₂ ⟨rfl, hlist⟩
      refine Charts.pure hl₂.charted ⟨hplace, hbut.attach _ _, ?_, fun _ _ => .rfl, ?_⟩
      · exact ⟨_, if_pos rfl⟩
      · intro name k heq
        obtain ⟨htop, rfl, hne⟩ := mergedAt_eq_shared heq
        exact hlist (owner_mergedAt.trans htop) hne

end Merged

end Binding

end NameBinding
