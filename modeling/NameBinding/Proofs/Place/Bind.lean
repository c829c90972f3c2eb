import NameBinding.Proofs.Bind.Rest
import NameBinding.Proofs.Place.Signatures

/-! # Declarations put symbols at their places

Binding a declaration succeeds, contributes to the places that its text determines, and leaves open
what the text says. One statement for each kind of declaration. -/

namespace NameBinding

open SymbolGraph

namespace Chart

/-- What is inside a declaration stands where it should. -/
def Opens (c : Chart) : BindM.Inside → Opened → Prop
  | .closed, .closed => True
  | .scope scope, .scope q => c.Holds scope q
  | _, _ => False

/-- The declaration was bound as its text says. -/
structure Realizes (c c' : Chart) (unit : UnitId) (inside : BindM.Inside)
    (outcome : Decl.Outcome) : Prop where
  settled : c'.Settled
  opens : c'.Opens inside outcome.2
  adds : c.Adds c' unit outcome.1

variable {c : Chart} {d : DeclId} {q : Place}

/-- Contributing a second time changes nothing. -/
theorem adds_contribute_again (h : c.contributes d q) (unit : UnitId) :
    c.Adds (c.contribute d q) unit [] := by
  intro d' q'
  simp only [contribute, List.not_mem_nil, and_false, or_false]
  constructor
  · rintro (hd | ⟨rfl, rfl⟩)
    · exact hd
    · exact h
  · exact .inl

end Chart

namespace Binding

variable {c c' : Chart} {b b' : Binding} {x : SymbolId} {q o : Place} {d : Decl} {file : String}
  {u : CompilationUnit} {scope : Option SymbolId} {kind : SymbolKind}

/-- A declaration that can be bound: it is one of the unit and contributes nowhere yet, and neither
do its parameters. -/
structure Fresh (c : Chart) (b : Binding) (u : CompilationUnit) (d : Decl) : Prop where
  numbered : u.Numbered
  nested : u.Nested
  within : b.Within u
  decl : u.decl? d.id = some d
  unused : ∀ r, ¬c.contributes d.id r
  arguments : ∀ x ∈ d.children, ∀ child, u.decl? x = some child → child.kind = .argument →
    ∀ r, ¬c.contributes x r

theorem Fresh.unit (h : Fresh c b u d) : d.id.unit = u.id := (CompilationUnit.decl?_eq_some h.decl).1

theorem Fresh.knows (h : Fresh c b u d) (hc : Charted c b) : b.Knows u.path d :=
  h.within.knows hc.program h.numbered h.decl

/-! ### Declarations that share a symbol -/

theorem Charted.charts_record_merged (h : Charted c' b') (hk : b'.Knows file d)
    (hkind : d.symbolKind? = some kind)
    (hx : c'.place x = some (d.mergedAt file o kind)) (hbut : c'.SettledBut x)
    (hung : ∃ a, c'.attachment x = some a)
    (hlist : ∀ name k, d.mergedAt file o kind = .shared .top name k →
      ∀ u ∈ b'.program.units, u.id = d.id.unit → x ∈ u.topLevelSymbols name) :
    Charts c' b' (BindM.record d.id x) fun _ c'' _ =>
      c''.Settled ∧ c'.Adds c'' d.id.unit [(d.id.index, d.mergedAt file o kind)] := by
  have hauthor : ∃ u ∈ b'.program.units, u.id = d.id.unit ∧
      (∀ owner spot, d.mergedAt file o kind = .single owner spot →
        spot.file = u.path ∧ spot.index = d.id.index) ∧
      ∀ name k, d.mergedAt file o kind = .shared .top name k → x ∈ u.topLevelSymbols name := by
    obtain ⟨u, hu, hid, hpath⟩ := hk.unit
    refine ⟨u, hu, hid, fun owner spot heq => ?_, fun name k heq => hlist name k heq u hu hid⟩
    unfold Decl.mergedAt at heq
    split at heq
    · obtain ⟨-, rfl⟩ := Place.single.inj heq
      exact ⟨hpath.symm, rfl⟩
    · exact absurd heq (by simp)
  refine (h.charts_record hx (hk.named (kind?_mergedAt.trans hkind.symm)) hauthor).weaken ?_
  rintro _ c'' b'' _ rfl
  refine ⟨(hbut.contribute _ _).settled hx hung ⟨d.id, .inr ⟨rfl, rfl⟩⟩, ?_⟩
  exact Chart.adds_contribute c' _ _

/-- A declaration gets the symbol at its shared place and is listed there. -/
theorem Charted.charts_share {α : Type} {f : SymbolId → BindM α} {post : α → Chart → Binding → Prop}
    (h : Charted c b) (hs : c.Settled) (hf : Fresh c b u d) (hscope : c.Holds scope q)
    (hkind : d.symbolKind? = some kind)
    (hmerged : kind.isMerged ∨ kind = .field) {accept : SymbolKind → Flags SymbolFlag → Bool}
    (haccept : ∀ k flags, accept k flags ↔ k = kind ∧ (kind = .field → flags.has .accessor))
    (hflag : kind = .field → d.has .accessor)
    (hrest : ∀ x c' b', Leads c b c' b' → c'.Settled →
      c'.place x = some (d.mergedAt u.path (d.ownerAt q) kind) →
      c.Adds c' u.id [(d.id.index, d.mergedAt u.path (d.ownerAt q) kind)] →
      Charts c' b' (f x) post) :
    Charts c b (do
      let x ← BindM.mergeOrCreate u.id scope d kind accept
      BindM.record d.id x
      f x) post := by
  have hk := hf.knows h
  have hmerge := h.charts_mergeOrCreate hs hscope hk hf.unused hmerged haccept hflag
  rw [hf.unit] at hmerge
  refine hmerge.bind fun x c₁ b₁ hl₁ ⟨hx, hbut, hung, hsame, hlist⟩ => ?_
  refine (hl₁.charted.charts_record_merged (hk.of_text hl₁.text) hkind hx hbut hung
    (hf.unit ▸ hlist)).bind fun _ c₂ b₂ hl₂ ⟨hset, hadds⟩ => ?_
  refine hrest x c₂ b₂ (hl₁.trans hl₂) hset (hl₂.place hx) ?_
  intro d' r
  rw [hadds d' r, hsame d' r, hf.unit]

theorem Charted.charts_bindMerged (h : Charted c b) (hs : c.Settled) (hf : Fresh c b u d)
    (hscope : c.Holds scope q) (hkind : d.symbolKind? = some kind) (hmerged : kind.isMerged) :
    Charts c b (BindM.bindMerged u.id scope d kind) fun inside c' _ =>
      c.Realizes c' u.id inside (d.mergedOutcome u.path q kind) := by
  have hfield : kind ≠ .field := by
    rintro rfl
    simp [SymbolKind.isMerged] at hmerged
  unfold BindM.bindMerged
  refine h.charts_share hs hf hscope hkind (.inl hmerged) (fun k flags => ?_)
    (fun hk => absurd hk hfield) fun x c' b' hl hset hx hadds => ?_
  · simp [hfield]
  · exact Charts.pure hl.charted ⟨hset, hx, hadds⟩

theorem Charted.charts_bindAccessor (h : Charted c b) (hs : c.Settled) (hf : Fresh c b u d)
    (hscope : c.Holds scope q) (hkind : d.symbolKind? = some .field) (hacc : d.has .accessor) :
    Charts c b (BindM.bindAccessor u.id scope d) fun inside c' _ =>
      c.Realizes c' u.id inside (d.mergedOutcome u.path q .field) := by
  unfold BindM.bindAccessor
  refine h.charts_share hs hf hscope hkind (.inr rfl) (fun k flags => ?_) (fun _ => hacc)
    fun x c' b' hl hset hx hadds => ?_
  · simp
  · exact Charts.pure hl.charted ⟨hset, hx, hadds⟩

/-! ### Declarations with a symbol of their own -/

theorem proper_singleAt (hname : ¬kind.isMerged) (hfield : kind = .field → ¬d.has .accessor) :
    (d.singleAt file o kind).Proper := by
  refine ⟨proper_attachmentAt d o, fun hside => absurd hside (by simp [Decl.attachmentAt]),
    fun _ => ⟨hname, fun hk => ⟨_, rfl, ?_⟩⟩⟩
  have hp : d.flags.has .accessor = false := by simpa [Decl.has] using hfield hk
  simp [Flags.toSymbolFlags, Flags.has_carry, hp, Flag.bit]

theorem Charted.charts_bindValue (h : Charted c b) (hs : c.Settled) (hf : Fresh c b u d)
    (hscope : c.Holds scope q) (hkind : d.symbolKind? = some kind) (hname : ¬kind.isMerged)
    (hclass : kind ≠ .classType)
    (hfield : kind = .field → ¬d.has .accessor) :
    Charts c b (BindM.bindValue u.id scope d kind) fun inside c' _ =>
      c.Realizes c' u.id inside (d.valueOutcome u.path q kind) := by
  have hk := hf.knows h
  unfold BindM.bindValue BindM.create
  refine Charts.bind (Q := fun _ c' _ => c'.Settled ∧
    c.Adds c' u.id [(d.id.index, d.singleAt u.path (d.ownerAt q) kind)]) ?_
    fun _ c' b' hl hq => Charts.pure hl.charted ⟨hq.1, True.intro, hq.2⟩
  refine (h.charts_owner hs hscope d).bind ?_
  rintro owner _ _ - ⟨rfl, rfl, howner⟩
  refine (h.charts_alloc (q := d.singleAt u.path (d.ownerAt q) kind)
    (h.place_ne_single hk rfl rfl (fun _ hz => hs.backed hz) (hf.unused _))
    (proper_singleAt hname hfield) rfl (fun f hf => Option.some.inj hf)
    (owned_of_holds howner)).bind ?_
  rintro x c₁ b₁ hl₁ ⟨rfl, rfl, hp₁⟩
  have hplace : (c.seat b.graph.size (d.singleAt u.path (d.ownerAt q) kind)).place b.graph.size =
      some (d.singleAt u.path (d.ownerAt q) kind) := by simp [Chart.seat]
  have hbut := hs.seat (q := d.singleAt u.path (d.ownerAt q) kind) h.lt_size
    (by simp [Place.kind?, Decl.singleAt, hclass])
  refine (hl₁.charted.charts_attach u.id (d := d) hplace (by simp [Chart.seat])
    (howner.mono hl₁.place) rfl ⟨proper_attachmentAt d _, rfl⟩).bind ?_
  rintro _ c₂ b₂ hl₂ ⟨rfl, -⟩
  have hk₂ := (hk.of_text hl₁.text).of_text hl₂.text
  refine (hl₂.charted.charts_record hplace (hk₂.named hkind.symm)
    (hk₂.author rfl rfl _)).weaken ?_
  rintro _ c₃ b₃ hl₃ rfl
  refine ⟨((hbut.attach _ _).contribute _ _).settled hplace ⟨_, if_pos rfl⟩
    ⟨d.id, .inr ⟨rfl, rfl⟩⟩, ?_⟩
  rw [← hf.unit]
  exact Chart.adds_contribute c _ _

/-- A class on which nothing hangs as its instance side. -/
theorem Charted.instanceType?_eq_none (h : Charted c b) (hx : c.place x = some q)
    (hnone : ∀ y r, c.place y = some r → r.owner = q → c.attachment y ≠ some .side) :
    b.graph.instanceType? x = none := by
  have hnil : b.graph.targets x .instanceType = [] := by
    refine List.eq_nil_iff_forall_not_mem.mpr fun y hy => ?_
    have he := h.wellFormed.mem_targets_iff.mp hy
    obtain ⟨x', y', r, a, hx', hy', ha, he⟩ := (h.joined rfl (.inl (by simp [hx]))).mp he
    obtain ⟨_, -, hacc⟩ := h.attached ha
    obtain ⟨rfl, rfl, rfl⟩ := hacc.proper.instanceType_mem_edges_iff.mp he
    exact hnone _ r hx' (Option.some.inj (hy'.symm.trans hx)) ha
  unfold SymbolGraph.instanceType? firstTarget
  rw [hnil]
  rfl

theorem Charted.charts_setInstanceType (h : Charted c b) {cls inst : SymbolId} {r : Place}
    (hcls : c.place cls = some r.owner) (hinst : c.place inst = some r)
    (hnone : c.attachment inst = none) (hacc : r.Accepts .side)
    (hfirst : b.graph.instanceType? cls = none) :
    Charts c b (BindM.onGraph (GraphM.setInstanceType cls inst)) fun _ c' b' =>
      c' = c.attach inst .side ∧ b'.program = b.program := by
  obtain ⟨hends, hl⟩ := h.leads_attach (e := ⟨cls, inst, .instanceType⟩) hinst hnone hacc hcls
    fun e => by simp [Attachment.edges, EdgeKind.isMembership]
  exact Charts.onGraph _ (GraphM.setInstanceType_eq_ok hfirst hends.1 hends.2) hl ⟨rfl, rfl⟩

/-- The instance side is there before the class is listed. -/
theorem Charted.charts_bindClass (h : Charted c b) (hs : c.Settled) (hf : Fresh c b u d)
    (hscope : c.Holds scope q) (hkind : d.symbolKind? = some .classType) :
    Charts c b (BindM.bindClass u.id scope d) fun inside c' _ =>
      c.Realizes c' u.id inside (d.classOutcome u.path q) := by
  have hk := hf.knows h
  unfold BindM.bindClass
  refine (h.charts_owner hs hscope d).bind ?_
  rintro owner _ _ - ⟨rfl, rfl, howner⟩
  let p := d.singleAt u.path (d.ownerAt q) .classType
  have hproper : p.Proper := proper_singleAt (by simp [SymbolKind.isMerged]) (by simp)
  have hnewCls := h.place_ne_single (o := d.ownerAt q) hk rfl rfl (fun _ hz => hs.backed hz)
    (hf.unused p)
  refine (h.charts_alloc (q := p) hnewCls hproper rfl (fun f hf => Option.some.inj hf)
    (owned_of_holds howner)).bind ?_
  rintro cls c₁ b₁ hl₁ ⟨rfl, rfl, hp₁⟩
  have hcls₁ : (c.seat b.graph.size p).place b.graph.size = some p := by simp [Chart.seat]
  have hold₁ : ∀ {z r}, (c.seat b.graph.size p).place z = some r → z ≠ b.graph.size →
      c.place z = some r := by
    intro z r hz hne
    simpa only [Chart.seat, hne, if_false] using hz
  have hinstProper : p.instanceSide.Proper :=
    ⟨True.intro, fun _ => rfl, fun _ => ⟨by simp [SymbolKind.isMerged], fun hk => absurd hk (by simp)⟩⟩
  refine (hl₁.charted.charts_alloc (q := p.instanceSide) ?_ hinstProper rfl
    (fun f hf => Option.some.inj hf) (.inr ⟨_, hcls₁⟩)).bind ?_
  · refine hl₁.charted.place_ne_single (hk.of_text hl₁.text) rfl rfl (fun z hz => ?_)
      (hf.unused p.instanceSide)
    refine hs.backed (hold₁ hz ?_)
    rintro rfl
    rw [hcls₁] at hz
    exact absurd (congrArg Place.kind? (Option.some.inj hz)) (by simp [Place.kind?, p, Decl.singleAt])
  rintro inst c₂ b₂ hl₂ ⟨rfl, rfl, hp₂⟩
  have hne : b.graph.size ≠ b₁.graph.size := Nat.ne_of_lt (hl₁.charted.lt_size hcls₁)
  have hcls₂ := hl₂.place hcls₁
  have hinst₂ : ((c.seat b.graph.size p).seat b₁.graph.size p.instanceSide).place b₁.graph.size =
      some p.instanceSide := by simp [Chart.seat]
  have hfirst : b₂.graph.instanceType? b.graph.size = none := by
    refine hl₂.charted.instanceType?_eq_none hcls₂ fun z r hz ho ha => ?_
    by_cases hzi : z = b₁.graph.size
    · simp [Chart.seat, hzi] at ha
    by_cases hzc : z = b.graph.size
    · simp [Chart.seat, hzc, hne] at ha
    simp only [Chart.seat, hzi, hzc, if_false] at hz
    rcases h.owned hz with htop | ⟨y, hy⟩
    · exact absurd (htop.symm.trans ho) (by simp [p, Decl.singleAt])
    · exact hnewCls y (hy.trans (congrArg some ho))
  refine (hl₂.charted.charts_setInstanceType (r := p.instanceSide) hcls₂ hinst₂
    (by simp [Chart.seat]) ⟨True.intro, rfl⟩ hfirst).bind ?_
  rintro _ c₃ b₃ hl₃ ⟨rfl, hp₃⟩
  have hk₃ := ((hk.of_text hl₁.text).of_text hl₂.text).of_text hl₃.text
  refine (hl₃.charted.charts_contribute hinst₂ (hk₃.author rfl rfl _)).bind ?_
  rintro _ c₄ b₄ hl₄ ⟨rfl, hp₄⟩
  refine (hl₄.charted.charts_attach u.id (q := p) (d := d) hcls₂ ?_
    (howner.mono fun hz => hl₂.place (hl₁.place hz)) rfl ⟨proper_attachmentAt d _, rfl⟩).bind ?_
  · simp [Chart.contribute, Chart.attach, Chart.seat, hne]
  rintro _ c₅ b₅ hl₅ ⟨rfl, -⟩
  have hk₅ := (hk₃.of_text hl₄.text).of_text hl₅.text
  refine (hl₅.charted.charts_record (q := p) hcls₂ (hk₅.named hkind.symm)
    (hk₅.author rfl rfl _)).bind ?_
  rintro _ c₆ b₆ hl₆ rfl
  have hfinal : ∀ {z r}, ((c.seat b.graph.size p).seat b₁.graph.size p.instanceSide).place z =
      some r → (z = b₁.graph.size ∧ r = p.instanceSide) ∨ (z = b.graph.size ∧ r = p) ∨
        (z ≠ b₁.graph.size ∧ z ≠ b.graph.size ∧ c.place z = some r) := by
    intro z r hz
    by_cases hzi : z = b₁.graph.size
    · exact .inl ⟨hzi, Option.some.inj (by rw [← hz, hzi, hinst₂])⟩
    by_cases hzc : z = b.graph.size
    · exact .inr (.inl ⟨hzc, Option.some.inj (by rw [← hz, hzc, hcls₂])⟩)
    simp only [Chart.seat, hzi, hzc, if_false] at hz
    exact .inr (.inr ⟨hzi, hzc, hz⟩)
  refine Charts.pure hl₆.charted ⟨⟨?_, ?_, ?_⟩, hcls₂, ?_⟩
  · intro z r hz
    simp only [Chart.contribute, Chart.attach]
    rcases hfinal hz with ⟨rfl, -⟩ | ⟨rfl, -⟩ | ⟨hzi, hzc, hz⟩
    · exact ⟨.side, by simp [hne.symm]⟩
    · exact ⟨_, if_pos rfl⟩
    · obtain ⟨a, ha⟩ := hs.hung hz
      exact ⟨a, by simpa [Chart.seat, hzi, hzc] using ha⟩
  · intro z r hz
    rcases hfinal hz with ⟨-, rfl⟩ | ⟨-, rfl⟩ | ⟨-, -, hz⟩
    · exact ⟨d.id, .inl (.inr ⟨rfl, rfl⟩)⟩
    · exact ⟨d.id, .inr ⟨rfl, rfl⟩⟩
    · obtain ⟨d', hd'⟩ := hs.backed hz
      exact ⟨d', .inl (.inl hd')⟩
  · intro z r hz hr
    rcases hfinal hz with ⟨-, rfl⟩ | ⟨-, rfl⟩ | ⟨-, -, hz⟩
    · simp [Place.kind?, Place.instanceSide, p, Decl.singleAt] at hr
    · exact ⟨b₁.graph.size, hinst₂⟩
    · obtain ⟨y, hy⟩ := hs.sided hz hr
      exact ⟨y, hl₂.place (hl₁.place hy)⟩
  · have hfirst' := (Chart.adds_contribute (((c.seat b.graph.size p).seat b₁.graph.size
      p.instanceSide).attach b₁.graph.size .side) d.id p.instanceSide).trans
      (Chart.adds_contribute _ d.id p)
    rw [hf.unit] at hfirst'
    exact hfirst'

/-! ### Declarations with a signature -/

theorem isMerged_functionKind (d : Decl) : d.functionKind.isMerged := by
  unfold Decl.functionKind
  split <;> rfl

/-- Listing one symbol leaves the parameters without places. -/
theorem Fresh.arguments_of_adds (hf : Fresh c b u d) (hkind : d.kind ≠ .argument)
    (hadds : c.Adds c' u.id [(d.id.index, q)]) : ∀ x ∈ d.children, ∀ child, u.decl? x = some child →
      child.kind = .argument → ∀ r, ¬c'.contributes x r := by
  intro x hx child hd hk r hr
  rcases (hadds x r).mp hr with hr | ⟨hunit, hr⟩
  · exact hf.arguments x hx child hd hk r hr
  · have hidx : x.index = d.id.index := congrArg Prod.fst (List.mem_singleton.mp hr)
    have hxd : x = d.id := by
      have hdu := hf.unit
      cases x
      cases hid : d.id
      simp_all
    have hd' := hf.decl
    rw [← hxd, hd] at hd'
    exact hkind (Option.some.inj hd' ▸ hk)

/-- The last step for a signature: it hangs on its owner. -/
theorem Charted.charts_hangSignature (h : Charted c b) {s owner : SymbolId} {edge : EdgeKind}
    {flags : Option (Flags SymbolFlag)} (hedge : edge.isSignature)
    (hs : c.place s = some (d.signatureAt file o edge flags)) (hnone : c.attachment s = none)
    (howner : c.place owner = some o) :
    Charts c b (BindM.link owner s edge) fun _ c' _ => c' = c.attach s (.signature edge) := by
  refine (h.charts_link (e := ⟨owner, s, edge⟩) (a := .signature edge) hs hnone ⟨hedge, rfl⟩ howner
    fun e' => ?_).weaken fun _ _ _ _ hq => hq.1
  have hm : edge.isMembership = false := by
    cases edge <;> simp_all [EdgeKind.isSignature, EdgeKind.isMembership]
  simp [Attachment.edges, hm]

theorem Charted.charts_bindFunction (h : Charted c b) (hs : c.Settled) (hf : Fresh c b u d)
    (hscope : c.Holds scope q) (hkind : d.kind ≠ .argument)
    (hsymbol : d.symbolKind? = some d.functionKind) :
    Charts c b (BindM.bindFunction u.id scope d) fun inside c' _ =>
      c.Realizes c' u.id inside (d.functionOutcome u.path q (u.arguments d)) := by
  have hmerged := isMerged_functionKind d
  have hfield : d.functionKind ≠ .field := by
    intro hk
    simp [hk, SymbolKind.isMerged] at hmerged
  rw [BindM.bindFunction_eq]
  refine h.charts_share hs hf hscope hsymbol (.inl hmerged) (fun k flags => ?_)
    (fun hk => absurd hk hfield) fun x c₁ b₁ hl₁ hset hx hadds => ?_
  · rw [beq_iff_eq]
    exact ⟨fun hk => ⟨hk, fun hf => absurd hf hfield⟩, fun hk => hk.1⟩
  refine Charts.graph_bind ?_
  have hunused : ¬c₁.contributes d.id (d.signatureAt u.path
      (d.mergedAt u.path (d.ownerAt q) d.functionKind) .callSignature none) := by
    intro hc
    rcases (hadds _ _).mp hc with hc | ⟨-, hc⟩
    · exact hf.unused _ hc
    · have hk : some SymbolKind.signature =
          (d.mergedAt u.path (d.ownerAt q) d.functionKind).kind? :=
        congrArg (fun r : Nat × Place => r.2.kind?) (List.mem_singleton.mp hc)
      rw [kind?_mergedAt] at hk
      rw [← Option.some.inj hk] at hmerged
      simp [SymbolKind.isMerged] at hmerged
  refine (hl₁.charted.charts_bindSignature hset hf.numbered hf.nested (hf.within.of_text hl₁.text)
    hf.decl hkind .none rfl (by simp) (.inr ⟨x, hx⟩) hunused
    (hf.arguments_of_adds hkind hadds)).bind ?_
  rintro s c₂ b₂ hl₂ ⟨hsig, hbut, hnone, hadds₂⟩
  refine (hl₂.charted.charts_hangSignature rfl hsig hnone
    (hl₂.place hx)).bind ?_
  rintro _ c₃ b₃ hl₃ rfl
  refine Charts.pure hl₃.charted ⟨?_, hl₂.place hx, ?_⟩
  · refine (hbut.attach _ _).settled hsig ⟨_, if_pos rfl⟩ ⟨d.id, (hadds₂ _ _).mpr (.inr ⟨hf.unit, ?_⟩)⟩
    exact List.mem_cons_self
  · exact hadds.trans hadds₂

/-- A signature that already lists its declaration becomes the symbol of it. -/
theorem Charted.charts_record_signature (h : Charted c b) (hk : b.Knows file d)
    (hkind : d.symbolKind? = some .signature) {s : SymbolId}
    {edge : EdgeKind} {flags : Option (Flags SymbolFlag)}
    (hs : c.place s = some (d.signatureAt file o edge flags)) (hbut : c.SettledBut s)
    (hung : ∃ a, c.attachment s = some a)
    (hlisted : c.contributes d.id (d.signatureAt file o edge flags)) (unit : UnitId) :
    Charts c b (BindM.record d.id s) fun _ c' _ => c'.Settled ∧
      c'.place s = some (d.signatureAt file o edge flags) ∧ c.Adds c' unit [] := by
  refine (h.charts_record hs (hk.named hkind.symm) (hk.author rfl rfl _)).weaken ?_
  rintro _ c' b' _ rfl
  refine ⟨(hbut.contribute _ _).settled hs hung ⟨d.id, .inl hlisted⟩, hs, ?_⟩
  exact Chart.adds_contribute_again hlisted unit

/-- A signature is hung on its owner, if it has one, and becomes the symbol of its declaration. -/
theorem Charted.charts_ownSignature {α : Type} {f : SymbolId → BindM α}
    {post : α → Chart → Binding → Prop} (h : Charted c b) (hs : c.Settled) (hf : Fresh c b u d)
    (hkind : d.kind ≠ .argument) (hsymbol : d.symbolKind? = some .signature)
    {flags : Flags SymbolFlag} {fieldsOf : Option SymbolId} {fieldsAt : Option Place}
    (hfields : Option.Rel (fun inst o => c.place inst = some o) fieldsOf fieldsAt)
    {edge : EdgeKind} (hedge : edge.isSignature) {owner : Option SymbolId}
    (howner : c.Holds owner o)
    (hrest : ∀ s c' b', Leads c b c' b' → c'.Settled →
      c'.place s = some (d.signatureAt u.path o edge (some flags)) →
      c.Adds c' u.id (d.signaturePlaces u.path (u.arguments d) fieldsAt
        (d.signatureAt u.path o edge (some flags))) → Charts c' b' (f s) post) :
    Charts c b (do
      let s ← BindM.bindSignature d flags fieldsOf
      match owner with
      | some owner => do
        BindM.link owner s edge
        BindM.record d.id s
        f s
      | none => do
        BindM.record d.id s
        f s) post := by
  have hk := hf.knows h
  refine (h.charts_bindSignature hs hf.numbered hf.nested hf.within hf.decl hkind hfields hedge
    (fun f hf => Option.some.inj hf) (owned_of_holds howner) (hf.unused _)
    hf.arguments).bind fun s c₁ b₁ hl₁ ⟨hsig, hbut, hnone, hadds⟩ => ?_
  have hk₁ := hk.of_text hl₁.text
  have hlisted : c₁.contributes d.id (d.signatureAt u.path o edge (some flags)) :=
    (hadds _ _).mpr (.inr ⟨hf.unit, List.mem_cons_self⟩)
  -- Hanging the signature is the only change to the chart that is left.
  have hlast : ∀ b₂, Leads c b (c₁.attach s (.signature edge)) b₂ → b₂.Knows u.path d →
      Charts (c₁.attach s (.signature edge)) b₂ (do BindM.record d.id s; f s) post := by
    intro b₂ hl₂ hk₂
    refine (hl₂.charted.charts_record_signature hk₂ hsymbol hsig (hbut.attach _ _) ⟨_, if_pos rfl⟩ hlisted
      u.id).bind fun _ c₃ b₃ hl₃ ⟨hset, hplace, hsame⟩ => ?_
    refine hrest s c₃ b₃ (hl₂.trans hl₃) hset hplace ?_
    have htrans := hadds.trans hsame
    rwa [List.append_nil] at htrans
  cases owner with
  | some y =>
      refine (hl₁.charted.charts_hangSignature hedge hsig hnone (hl₁.place howner)).bind ?_
      rintro _ c₂ b₂ hl₂ rfl
      exact hlast b₂ (hl₁.trans hl₂) (hk₁.of_text hl₂.text)
  | none =>
      have hc₂ := hl₁.charted.attachTop hsig howner hnone (a := .signature edge) ⟨hedge, rfl⟩
      refine Charts.rechart (c₁.attach s (.signature edge)) hc₂ rfl ?_
      exact hlast b₁ (hl₁.trans (.rechart hc₂ rfl)) hk₁

/-- The instance side for the fields of a constructor. -/
theorem Charted.charts_constructedType (h : Charted c b) (hs : c.Settled)
    (hscope : c.Holds scope q) :
    Charts c b (BindM.constructedType scope) fun fieldsOf c' b' => c = c' ∧ b = b' ∧
      Option.Rel (fun inst o => c.place inst = some o) fieldsOf q.instances? := by
  unfold BindM.constructedType
  refine Charts.graph_bind ?_
  cases scope with
  | none =>
      obtain rfl : q = .top := hscope
      exact Charts.pure h ⟨rfl, rfl, .none⟩
  | some x =>
      have hx : c.place x = some q := hscope
      have hkind := h.kind? hx
      by_cases hk : q.kind? = some .classType
      · obtain ⟨y, hy, hinst⟩ := h.instanceType? hs hx hk
        have hq : q.instances? = some q.instanceSide := by simp [Place.instances?, hk]
        simp only [hkind, hk, beq_self_eq_true, if_true, hinst, hq]
        exact Charts.pure h ⟨rfl, rfl, .some hy⟩
      · have hq : q.instances? = none := by simp [Place.instances?, hk]
        simp only [hkind, beq_eq_false_iff_ne.mpr hk, if_false, hq, Bool.false_eq_true]
        exact Charts.pure h ⟨rfl, rfl, .none⟩

theorem Charted.charts_bindConstructor (h : Charted c b) (hs : c.Settled) (hf : Fresh c b u d)
    (hscope : c.Holds scope q) (hkind : d.kind ≠ .argument)
    (hsymbol : d.symbolKind? = some .signature) :
    Charts c b (BindM.bindConstructor scope d) fun inside c' _ =>
      c.Realizes c' u.id inside (d.constructorOutcome u.path q (u.arguments d)) := by
  unfold BindM.bindConstructor
  refine (h.charts_constructedType hs hscope).bind ?_
  rintro fieldsOf _ _ - ⟨rfl, rfl, hfields⟩
  refine h.charts_ownSignature hs hf hkind hsymbol hfields
    rfl hscope fun s c' b' hl hset hsig hadds => ?_
  exact Charts.pure hl.charted ⟨hset, hsig, hadds⟩

theorem Charted.charts_bindMemberSignature (h : Charted c b) (hs : c.Settled) (hf : Fresh c b u d)
    (hscope : c.Holds scope q) (hkind : d.kind ≠ .argument)
    (hsymbol : d.symbolKind? = some .signature) :
    Charts c b (BindM.bindMemberSignature scope d) fun inside c' _ =>
      c.Realizes c' u.id inside (d.memberSignatureOutcome u.path q (u.arguments d)) := by
  have hedge := d.isSignature_signatureEdge
  unfold BindM.bindMemberSignature
  dsimp only
  split
  · next hcon =>
    rw [pure_bind]
    refine h.charts_ownSignature hs hf hkind hsymbol .none hedge hscope fun s c' b' hl hset hsig hadds => ?_
    refine Charts.pure hl.charted ⟨hset, True.intro, ?_⟩
    simpa only [Decl.memberSignatureOutcome, hcon, if_true] using hadds
  · next hcon =>
    refine (h.charts_owner hs hscope d).bind ?_
    rintro owner _ _ - ⟨rfl, rfl, howner⟩
    refine h.charts_ownSignature hs hf hkind hsymbol .none hedge howner
      fun s c' b' hl hset hsig hadds => ?_
    refine Charts.pure hl.charted ⟨hset, True.intro, ?_⟩
    simpa only [Decl.memberSignatureOutcome, hcon, if_false] using hadds

/-- Each declaration is bound as its text says. -/
theorem Charted.charts_bindDecl (h : Charted c b) (hs : c.Settled) (hf : Fresh c b u d)
    (hscope : c.Holds scope q) :
    Charts c b (BindM.bindDecl u.id scope d) fun inside c' _ =>
      c.Realizes c' u.id inside (d.outcome u.path q (u.arguments d)) := by
  unfold BindM.bindDecl Decl.outcome
  cases hk : d.kind with
  | script => exact Charts.pure h ⟨hs, hscope, .refl c u.id⟩
  | module | dynamicModule | interface =>
      exact h.charts_bindMerged hs hf hscope (by simp [Decl.symbolKind?, hk]) rfl
  | classDecl => exact h.charts_bindClass hs hf hscope (by simp [Decl.symbolKind?, hk])
  | function | method | staticMethod =>
      dsimp only
      split
      · next hcon =>
        exact h.charts_bindConstructor hs hf hscope (by simp [hk]) (by simp [Decl.symbolKind?, hk, hcon])
      · next hcon =>
        exact h.charts_bindFunction hs hf hscope (by simp [hk]) (by simp [Decl.symbolKind?, hk, hcon])
  | field | staticField =>
      dsimp only
      split
      · next hacc =>
        exact h.charts_bindAccessor hs hf hscope (by simp [Decl.symbolKind?, hk]) hacc
      · next hacc =>
        exact h.charts_bindValue hs hf hscope (by simp [Decl.symbolKind?, hk])
          (by simp [SymbolKind.isMerged]) (by simp) fun _ => hacc
  | «variable» | «import» =>
      exact h.charts_bindValue hs hf hscope (by simp [Decl.symbolKind?, hk])
        (by simp [SymbolKind.isMerged]) (by simp) (by simp)
  | callSignature | constructSignature | indexSignature =>
      exact h.charts_bindMemberSignature hs hf hscope (by simp [hk]) (by simp [Decl.symbolKind?, hk])
  | argument => exact Charts.pure h ⟨hs, True.intro, .refl c u.id⟩

end Binding

end NameBinding
