import NameBinding.Proofs.Graph.Walk
import NameBinding.Proofs.Resolve.Tasks

/-! # Resolving the bases of a type

A base is resolved before it is linked. The bases form no cycle, so no check refuses one, and a type
gets the same bases whatever was resolved before. -/

namespace NameBinding

open SymbolGraph ResolveM

namespace Start

variable {b : Start} {ds : List Diagnostic} {opened : List SymbolId} {s s' : Scene}
  {x type inst base : SymbolId} {f : Fact} {site : DeclSite} {entry : NodeRef} {notObject : Nat}
  {α : Type}

/-- What happens in the first scene happens in all of them. -/
theorem Determines.first {m : ResolveM α} {Q : α → Prop} (h : b.Determines m Q) :
    ∃ answer r, m ⟨b.graph, []⟩ = .ok answer r ∧ Q answer ∧
      ∀ {opened s}, b.IsClear opened → b.Valid opened s → ∃ s', s.Runs m answer s' ∧
        b.Valid opened s' ∧ b.Leads (reports r.diagnostics) s s' := by
  obtain ⟨answer, ds, hanswer, h⟩ := h
  obtain ⟨first, hfirst, -, hl⟩ := h ⟨[], b.isClear_nil⟩ (b.scene []) (b.valid_scene [])
  have hsame : ∀ d, d ∈ first.diagnostics ↔ d ∈ ds := fun d =>
    (hl.mem_diagnostics_iff d).trans reported_mem_reports
  refine ⟨answer, first.resolution, hfirst, hanswer, fun {opened s} hclear hs => ?_⟩
  obtain ⟨s', hr, hs', hl'⟩ := h ⟨opened, hclear⟩ s hs
  refine ⟨s', hr, hs', hl'.congr fun f => ?_⟩
  constructor
  · rintro ⟨d, hd, rfl⟩
    exact ⟨d, (hsame d).mp hd, rfl⟩
  · rintro ⟨d, hd, rfl⟩
    exact ⟨d, (hsame d).mpr hd, rfl⟩

/-! ### No base leads back to its heir -/

theorem Valid.of_origin (h : b.Valid opened s) (hlt : x < s.graph.size)
    (ho : s.origin x = .given type) : x = type := by
  have hx : x < b.size := Nat.lt_of_not_le fun hle => h.later hle hlt ho
  exact Origin.given.inj ((h.given hx).symm.trans ho)

theorem Settled.namesBase (h : b.Settled ds opened s) (he : s.graph.hasEdge ⟨x, base, .extends⟩) :
    b.setting.NamesBase b.graph x base := by
  obtain ⟨hx, hbase⟩ := h.valid.wellFormed.lt_size he
  rcases h.accounted (f := .edge (s.origin x) .extends (s.origin base)) ⟨x, base, rfl, rfl, he⟩ with
    ⟨y, z, -, -, hgiven⟩ | ⟨y, hy, hown⟩
  · exact absurd hgiven (b.not_hasEdge (.inl rfl))
  · obtain ⟨t, t', ho, ho', hnames⟩ := hown.of_extends hy
    obtain rfl : x = t := h.valid.of_origin hx ho
    obtain rfl : base = t' := h.valid.of_origin hbase ho'
    exact hnames

theorem Settled.not_extendsWithin (h : b.Settled ds opened s)
    (hnames : b.setting.NamesBase b.graph type base) (depth : Nat) :
    ¬s.graph.extendsWithin depth base type := by
  intro hleads
  obtain ⟨r, hr, hwithin⟩ := Walk.mem_reach_iff.mp (List.contains_iff_mem.mp hleads)
  obtain rfl := List.mem_singleton.mp hr
  have hback : Relation.ReflTransGen (b.setting.NamesBase b.graph) r type := by
    refine Relation.ReflTransGen.mono (fun y z hz => ?_) _ _ hwithin.reflTransGen
    refine h.namesBase (h.valid.wellFormed.mem_targets_iff.mp ?_)
    exact (List.mem_filter.mp (mem_of_mem_listFor hz)).1
  exact b.grounded type (.head' hnames hback)

/-! ### Entries -/

theorem isHeir_of_baseEntry (h : b.setting.BaseEntry b.graph type site entry notObject) :
    b.setting.IsHeir b.graph type := by
  cases h with
  | ofClass hside => exact .inl ⟨_, hside⟩
  | ofInterface _ hd hsite hi =>
      obtain ⟨u, hu, hmap⟩ := Option.bind_eq_some_iff.mp hsite
      obtain ⟨decl, hdecl, rfl⟩ := Option.map_eq_some_iff.mp hmap
      exact .inr ⟨_, hd, u, decl, hu, hdecl, _, hi⟩

/-- The scene has what an entry among the bases of a type adds. -/
def HasEntry (b : Start) (type : SymbolId) (site : DeclSite) (notObject : Nat) (kind : EdgeKind)
    (entry : NodeRef) (s : Scene) : Prop :=
  ∀ f, b.EntryFact type site entry notObject kind f → b.Holds s f

theorem HasEntry.grows {kind : EdgeKind} (h : b.HasEntry type site notObject kind entry s)
    (hg : b.Grows s s') : b.HasEntry type site notObject kind entry s' := fun f hf => hg f (h f hf)

/-- What an entry adds is read off from looking it up first. -/
theorem EntryFact.of_first {kind : EdgeKind} {answer : Option SymbolId} {r : Resolution}
    (h : b.EntryFact type site entry notObject kind f)
    (hfirst : heritageTarget b.setting site notObject entry ⟨b.graph, []⟩ = .ok answer r) :
    f ∈ reports r.diagnostics ∨
      ∃ base, answer = some base ∧ f = .edge (.given type) kind (.given base) := by
  cases h with
  | reported hr hd =>
      cases hfirst.symm.trans hr
      exact .inl ⟨_, hd, rfl⟩
  | linked hr =>
      cases hfirst.symm.trans hr
      exact .inr ⟨_, rfl, rfl⟩

/-- An entry is looked up, and what it denotes is linked in the end. -/
theorem Settled.advances_entry {kind : EdgeKind} (h : b.Settled ds opened s) (hx : x ∈ opened)
    (hentry : b.Entry x type site entry notObject kind) {link : SymbolId → ResolveM Unit}
    (hlink : ∀ base s', base < b.size → b.Settled ds opened s' → b.Grows s s' →
      b.EntryFact type site entry notObject kind (.edge (.given type) kind (.given base)) →
      b.Advances ds opened s' (link base) fun s'' =>
        b.Holds s'' (.edge (.given type) kind (.given base))) :
    b.Advances ds opened s (heritageTarget b.setting site notObject entry >>= fun
      | some base => link base
      | none => pure ()) (b.HasEntry type site notObject kind entry) := by
  obtain ⟨answer, r, hfirst, hanswer, hruns⟩ :=
    (b.determines_heritageTarget site notObject entry).first
  obtain ⟨s₁, hr, hs₁, hl⟩ := hruns h.clear h.valid
  have hfacts : ∀ f ∈ reports r.diagnostics, b.EntryFact type site entry notObject kind f := by
    rintro _ ⟨d, hd, rfl⟩
    exact .reported hfirst hd
  have h₁ : b.Settled ds opened s₁ := by
    refine h.advance hs₁ hl hx (fun f hf => .heir (.entry hentry (hfacts f hf))) ?_
    rintro n label ⟨d, -, hf⟩
    cases hf
  cases answer with
  | none =>
      refine ⟨s₁, hr.bind (.pure s₁ ()), h₁, hl.grows, fun f hf => ?_⟩
      rcases hf.of_first hfirst with hd | ⟨base, hbase, -⟩
      · exact hl.adds hd
      · exact absurd hbase (by simp)
  | some base =>
      obtain ⟨s₂, hr₂, h₂, hg₂, hedge⟩ :=
        hlink base s₁ (hanswer base rfl) h₁ hl.grows (.linked hfirst)
      refine ⟨s₂, hr.bind hr₂, h₂, hl.grows.trans hg₂, fun f hf => ?_⟩
      rcases hf.of_first hfirst with hd | ⟨base', hbase, rfl⟩
      · exact hg₂ f (hl.adds hd)
      · cases hbase
        exact hedge

/-- What an entry denotes is linked to the type. -/
theorem Settled.advances_link {kind : EdgeKind} (h : b.Settled ds opened s) (hx : x ∈ opened)
    (hentry : b.Entry x type site entry notObject kind) (howner : b.baseOwner type = x)
    (hk : kind = .extends ∨ kind = .implements) (htype : type < b.size) (hbase : base < b.size)
    (hfact : b.EntryFact type site entry notObject kind (.edge (.given type) kind (.given base)))
    (hlinks : kind = .extends → b.setting.LinksBase s.graph ⟨type, base, kind⟩) :
    b.Advances ds opened s (link type base kind) fun s' =>
      b.Holds s' (.edge (.given type) kind (.given base)) := by
  have hends : type < s.graph.size ∧ base < s.graph.size :=
    ⟨h.valid.lt_size htype, h.valid.lt_size hbase⟩
  have hresolution : kind.isResolution := by rcases hk with rfl | rfl <;> rfl
  have hl := leads_addEdge (e := ⟨type, base, kind⟩) hends.1 hends.2 b
  rw [h.valid.given htype, h.valid.given hbase] at hl
  have hs' : b.Valid opened (s.setGraph (s.graph.addEdge ⟨type, base, kind⟩)) := by
    refine h.valid.link hends.1 hends.2 ?_ ?_ ⟨?_, ?_⟩ fun _ => ?_
    · exact h.valid.resolves.change (.point _ hresolution hends.1 hends.2 hlinks)
    · rcases hk with rfl | rfl <;> simp
    · rcases hk with rfl | rfl <;> simp
    · rcases hk with rfl | rfl <;> simp
    · exact howner ▸ (h.valid.opened_lt x hx).2 (h.given x hx)
  refine ⟨_, .link hends.1 hends.2, h.advance hs' hl hx ?_ ?_, hl.grows, hl.adds (.inl rfl)⟩
  · rintro f (rfl | ⟨hm, -⟩)
    · exact .heir (.entry hentry hfact)
    · exact absurd hm (EdgeKind.not_isMembership_of_isResolution hresolution)
  · rintro n label (hf | ⟨-, hf⟩) <;> cases hf

section Pull

variable {pull : SymbolId → ResolveM Unit} {s₀ : Scene}

/-- From every later scene the bases of a type can be resolved. -/
def Pulls (b : Start) (ds : List Diagnostic) (opened : List SymbolId) (s₀ : Scene)
    (pull : SymbolId → ResolveM Unit) : Prop :=
  ∀ base s, base < b.size → b.Settled ds opened s → b.Grows s₀ s →
    b.Advances ds opened s (pull base)

theorem Settled.advances_extendWith (h : b.Settled ds opened s) (hpull : b.Pulls ds opened s₀ pull)
    (hg : b.Grows s₀ s) (hx : x ∈ opened) (howner : b.baseOwner type = x)
    (hentry : b.setting.BaseEntry b.graph type site entry notObject) :
    b.Advances ds opened s (extendWith pull b.setting site notObject type entry)
      (b.HasEntry type site notObject .extends entry) := by
  have hheir := isHeir_of_baseEntry hentry
  have htype : type < b.size := by
    cases hentry with
    | ofClass hside => exact (b.sound.graph.lt_size hside).2
    | ofInterface hk => exact lt_size_of_kind? hk
  refine h.advances_entry hx (.extended howner hentry) fun base s₁ hbase h₁ hg₁ hfact => ?_
  refine (hpull base s₁ hbase h₁ (hg.trans hg₁)).bind fun s₂ h₂ _ _ => .graph_bind ?_
  have hnames : b.setting.NamesBase b.graph type base := by
    cases hfact with
    | linked hr => exact ⟨site, entry, notObject, hentry, _, hr⟩
  have hopen := h₂.not_extendsWithin hnames b.setting.options.maxHeritageDepth
  rw [if_neg (by simp [hopen])]
  refine h₂.advances_link hx (.extended howner hentry) howner (.inl rfl) htype hbase hfact
    fun _ => ?_
  exact ⟨(h₂.valid.resolves.isHeir_iff b.sound.graph.toWellFormed).mpr hheir, fun _ => hopen⟩

theorem Settled.advances_implementWith (h : b.Settled ds opened s) (hx : x ∈ opened)
    (hside : b.graph.hasEdge ⟨x, type, .instanceType⟩)
    (hentry : b.Entry x type site entry Message.classBaseNotObject .implements) :
    b.Advances ds opened s (implementWith b.setting site type entry)
      (b.HasEntry type site Message.classBaseNotObject .implements entry) := by
  have htype : type < b.size := (b.sound.graph.lt_size hside).2
  exact h.advances_entry hx hentry fun base s₁ hbase h₁ _ hfact =>
    h₁.advances_link hx hentry (baseOwner_of_side hside) (.inr rfl) htype hbase hfact
      fun he => absurd he (by simp)

/-! ### Declarations -/

/-- The scene has what the entries of a class declaration add. -/
def HasClassDecl (b : Start) (inst : SymbolId) (d : DeclId) (s : Scene) : Prop :=
  ∀ site c, b.setting.site? d = some site → site.tree.classDecl? site.decl.node = some c →
    (∀ entry ∈ c.extended, b.HasEntry inst site Message.classBaseNotObject .extends entry s) ∧
      ∀ entry ∈ c.implemented, b.HasEntry inst site Message.classBaseNotObject .implements entry s

/-- The scene has what the entries of an interface declaration add. -/
def HasInterfaceDecl (b : Start) (type : SymbolId) (d : DeclId) (s : Scene) : Prop :=
  ∀ site i, b.setting.site? d = some site → site.tree.interfaceDecl? site.decl.node = some i →
    ∀ entry ∈ i.extended, b.HasEntry type site Message.interfaceBaseNotObject .extends entry s

theorem HasClassDecl.grows {d : DeclId} (h : b.HasClassDecl inst d s) (hg : b.Grows s s') :
    b.HasClassDecl inst d s' := fun site c hsite hc =>
  ⟨fun entry he => ((h site c hsite hc).1 entry he).grows hg,
    fun entry he => ((h site c hsite hc).2 entry he).grows hg⟩

theorem HasInterfaceDecl.grows {d : DeclId} (h : b.HasInterfaceDecl type d s) (hg : b.Grows s s') :
    b.HasInterfaceDecl type d s' :=
  fun site i hsite hi entry he => (h site i hsite hi entry he).grows hg

theorem Settled.advances_resolveClassDecl {d : DeclId} (h : b.Settled ds opened s)
    (hpull : b.Pulls ds opened s₀ pull) (hg : b.Grows s₀ s) (hx : x ∈ opened)
    (hside : b.graph.hasEdge ⟨x, inst, .instanceType⟩) (hd : d ∈ b.graph.declarations x) :
    b.Advances ds opened s (resolveClassDecl pull b.setting inst d) (b.HasClassDecl inst d) := by
  obtain ⟨site, hsite⟩ := b.exists_site hd
  refine .read (.site hsite) ?_
  cases hc : site.tree.classDecl? site.decl.node with
  | none =>
      refine h.advances_pure fun site' c' hsite' hc' => ?_
      cases hsite.symm.trans hsite'
      exact absurd (hc.symm.trans hc') (by simp)
  | some c =>
      dsimp only
      have hextended := h.advances_forM c.extended
        (f := extendWith pull b.setting site Message.classBaseNotObject inst)
        (fun entry he s₁ h₁ hg₁ => h₁.advances_extendWith hpull (hg.trans hg₁) hx
          (baseOwner_of_side hside) (.ofClass hside hd hsite hc he)) fun _ _ _ => HasEntry.grows
      refine hextended.bind fun s₁ h₁ _ hextended => ?_
      obtain ⟨s₂, hr, h₂, hg₂, himplemented⟩ := h₁.advances_forM c.implemented
        (f := implementWith b.setting site inst) (fun entry he s₂ h₂ _ =>
          h₂.advances_implementWith hx hside (.implemented hside hd hsite hc he))
        fun _ _ _ => HasEntry.grows
      refine ⟨s₂, hr, h₂, hg₂, fun site' c' hsite' hc' => ?_⟩
      cases hsite.symm.trans hsite'
      cases hc.symm.trans hc'
      exact ⟨fun entry he => (hextended entry he).grows hg₂, himplemented⟩

theorem Settled.advances_resolveInterfaceDecl {d : DeclId} (h : b.Settled ds opened s)
    (hpull : b.Pulls ds opened s₀ pull) (hg : b.Grows s₀ s) (hx : x ∈ opened)
    (hk : b.graph.kind? x = some .interface) (hd : d ∈ b.graph.declarations x) :
    b.Advances ds opened s (resolveInterfaceDecl pull b.setting x d) (b.HasInterfaceDecl x d) := by
  obtain ⟨site, hsite⟩ := b.exists_site hd
  refine .read (.site hsite) ?_
  cases hi : site.tree.interfaceDecl? site.decl.node with
  | none =>
      refine h.advances_pure fun site' i' hsite' hi' => ?_
      cases hsite.symm.trans hsite'
      exact absurd (hi.symm.trans hi') (by simp)
  | some i =>
      dsimp only
      obtain ⟨s₁, hr, h₁, hg₁, hextended⟩ := h.advances_forM i.extended
        (f := extendWith pull b.setting site Message.interfaceBaseNotObject x)
        (fun entry he s₁ h₁ hg₁ => h₁.advances_extendWith hpull (hg.trans hg₁) hx
          (baseOwner_of_interface hk) (.ofInterface hk hd hsite hi he)) fun _ _ _ => HasEntry.grows
      refine ⟨s₁, hr, h₁, hg₁, fun site' i' hsite' hi' => ?_⟩
      cases hsite.symm.trans hsite'
      cases hi.symm.trans hi'
      exact hextended

/-! ### Classes and interfaces -/

/-- All that the bases of a class add. -/
theorem HeirFact.of_class (h : b.HeirFact x f)
    (hside : b.graph.hasEdge ⟨x, inst, .instanceType⟩) (hmarked : b.Holds s (.marked inst))
    (hdecls : ∀ d ∈ b.graph.declarations x, b.HasClassDecl inst d s) : b.Holds s f := by
  have hsame : ∀ {y}, b.graph.hasEdge ⟨x, y, .instanceType⟩ → y = inst := fun he =>
    b.sound.graph.sides _ _ _ he hside
  cases h with
  | side he =>
      rw [hsame he]
      exact hmarked
  | entry h hf =>
      cases h with
      | extended hx h =>
          cases h with
          | ofClass he hd hsite hc hmem =>
              obtain rfl := (baseOwner_of_side he).symm.trans hx
              obtain rfl := hsame he
              exact (hdecls _ hd _ _ hsite hc).1 _ hmem f hf
          | ofInterface hk =>
              rw [baseOwner_of_interface hk] at hx
              rw [hx, (b.sound.graph.isSide hside).1] at hk
              simp at hk
      | implemented he hd hsite hc hmem =>
          obtain rfl := hsame he
          exact (hdecls _ hd _ _ hsite hc).2 _ hmem f hf

/-- All that the bases of an interface add. -/
theorem HeirFact.of_interface (h : b.HeirFact x f) (hk : b.graph.kind? x = some .interface)
    (hdecls : ∀ d ∈ b.graph.declarations x, b.HasInterfaceDecl x d s) : b.Holds s f := by
  have hnone : ∀ {y}, ¬b.graph.hasEdge ⟨x, y, .instanceType⟩ := by
    intro y he
    have hcls := (b.sound.graph.isSide he).1
    rw [hk] at hcls
    simp at hcls
  cases h with
  | side he => exact absurd he hnone
  | entry h hf =>
      cases h with
      | extended hx h =>
          cases h with
          | ofClass he =>
              obtain rfl := (baseOwner_of_side he).symm.trans hx
              exact absurd he hnone
          | ofInterface hk' hd hsite hi hmem =>
              obtain rfl := (baseOwner_of_interface hk').symm.trans hx
              exact hdecls _ hd _ _ hsite hi _ hmem f hf
      | implemented he => exact absurd he hnone

/-- A type that was not resolved has no bases yet. -/
theorem Valid.targets_eq_nil {kind : EdgeKind} (h : b.Valid opened s)
    (hk : kind = .extends ∨ kind = .implements)
    (hr : ¬s.graph.isResolved (b.baseOwner type)) : s.graph.targets type kind = [] := by
  refine List.eq_nil_iff_forall_not_mem.mpr fun y hy => ?_
  have he : s.graph.hasEdge ⟨type, y, kind⟩ := h.wellFormed.mem_targets_iff.mp hy
  have howner := h.based he hk
  exact hr howner

/-- The bases of a class are resolved, and then its members are compared. -/
theorem Settled.advances_resolveClassWith (h : b.Settled ds opened s)
    (hside : b.graph.hasEdge ⟨x, inst, .instanceType⟩)
    (hpull : ¬s.graph.isResolved x → b.Pulls ds (x :: opened) (s.mark x) pull) :
    b.Advances ds opened s (resolveClassWith pull b.setting x) fun s' => s'.graph.isResolved x := by
  have hg := b.sound.graph.toWellFormed
  obtain ⟨hk, hkinst, -⟩ := b.sound.graph.isSide hside
  obtain ⟨hx, hinst⟩ := b.sound.graph.lt_size hside
  refine h.advances_once hx (by simp [hk]) fun hclosed hr hbegun => .graph_bind ?_
  have hinstance : b.graph.instanceType? x = some inst := by
    obtain ⟨y, hy⟩ := exists_instanceType? b.sound.graph.toMirrored hside
    rw [hy, b.sound.graph.sides _ _ _ (hasEdge_of_instanceType? b.sound.graph.toMirrored hy) hside]
  rw [hbegun.valid.resolves.instanceType?_eq hg hx, hinstance]
  have hmem : x ∈ x :: opened := List.mem_cons_self
  have hlt : inst < (s.mark x).graph.size := hbegun.valid.lt_size hinst
  have hl := leads_mark b (s.mark x) hlt
  have hmarked : b.Settled ds (x :: opened) ((s.mark x).mark inst) := by
    refine hbegun.advance ?_ hl hmem ?_ ?_
    · exact hbegun.valid.mark hlt (List.Subset.refl _) (fun _ => .inl) .inl fun ha => by
        simp [hkinst] at ha
    · rintro f ⟨-, rfl⟩
      exact .heir (.side hside)
    · rintro n label ⟨-, hf⟩
      cases hf
  have hnone : ∀ {kind}, kind = EdgeKind.extends ∨ kind = EdgeKind.implements →
      ((s.mark x).mark inst).graph.targets inst kind = [] := by
    intro kind hkind
    rw [targets_mark, targets_mark]
    exact h.valid.targets_eq_nil hkind (by rwa [baseOwner_of_side hside])
  refine .after (.markResolved _ inst) hl.grows (.read (.removeOutgoing (hnone (.inl rfl)))
    (.read (.removeOutgoing (hnone (.inr rfl)))
      (.read (.declarations (hmarked.valid.lt_size hx)) ?_)))
  rw [hmarked.valid.resolves.declarations x]
  have hdecls := hmarked.advances_forM (b.graph.declarations x)
    (f := resolveClassDecl pull b.setting inst) (fun d hd s₁ h₁ hg₁ =>
      h₁.advances_resolveClassDecl (hpull hr) (hl.grows.trans hg₁) hmem hside hd)
    fun _ _ _ => HasClassDecl.grows
  refine hdecls.bind fun s₁ h₁ hg₁ hdecls => ?_
  have hinstMarked : b.Holds s₁ (.marked inst) := hg₁ _ (hl.adds ⟨hinst, rfl⟩)
  obtain ⟨s₂, hruns, h₂, hg₂⟩ := h₁.finish hclosed (by simp [hk]) fun f hf =>
    hf.of_class hside hinstMarked hdecls
  rw [work, hk, hinstance] at hruns
  exact ⟨s₂, hruns, h₂, hg₂, True.intro⟩

/-- The bases of an interface are resolved, and then its members are compared. -/
theorem Settled.advances_resolveInterfaceWith (h : b.Settled ds opened s)
    (hk : b.graph.kind? x = some .interface)
    (hpull : ¬s.graph.isResolved x → b.Pulls ds (x :: opened) (s.mark x) pull) :
    b.Advances ds opened s (resolveInterfaceWith pull b.setting x)
      fun s' => s'.graph.isResolved x := by
  have hx : x < b.size := lt_size_of_kind? hk
  refine h.advances_once hx (by simp [hk]) fun hclosed hr hbegun => ?_
  have hnone : (s.mark x).graph.targets x .extends = [] := by
    rw [targets_mark]
    exact h.valid.targets_eq_nil (.inl rfl) (by rwa [baseOwner_of_interface hk])
  refine .read (.removeOutgoing hnone) (.read (.declarations (hbegun.valid.lt_size hx)) ?_)
  rw [hbegun.valid.resolves.declarations x]
  have hdecls := hbegun.advances_forM (b.graph.declarations x)
    (f := resolveInterfaceDecl pull b.setting x) (fun d hd s₁ h₁ hg₁ =>
      h₁.advances_resolveInterfaceDecl (hpull hr) hg₁ List.mem_cons_self hk hd)
    fun _ _ _ => HasInterfaceDecl.grows
  refine hdecls.bind fun s₁ h₁ _ hdecls => ?_
  obtain ⟨s₂, hruns, h₂, hg₂⟩ := h₁.finish hclosed (by simp [hk]) fun f hf =>
    hf.of_interface hk hdecls
  rw [work, hk] at hruns
  exact ⟨s₂, hruns, h₂, hg₂, True.intro⟩

end Pull

/-! ### Bases below bases -/

/-- By induction on the types that may still lie below. Each type on the way is pending before it is
resolved, so there are enough of them. -/
theorem Settled.advances_pullWithin {levels : Nat} (h : b.Settled ds opened s)
    (htype : type < b.size) (hlevels : (b.pending s).card < levels) :
    b.Advances ds opened s (pullWithin b.setting levels type) := by
  induction levels generalizing opened s type with
  | zero => exact absurd hlevels (Nat.not_lt_zero _)
  | succ levels ih =>
      have hpull : ∀ {x}, x < b.size → ¬s.graph.isResolved x →
          b.Pulls ds (x :: opened) (s.mark x) (pullWithin b.setting levels) := by
        intro x hx hr base s₁ hbase h₁ hg₁
        have hfewer := card_pending_mark_lt hx (h.valid.lt_size hx) hr
        exact ih h₁ hbase (by have := hg₁.card_pending_le; omega)
      rw [pullWithin]
      refine .graph_bind ?_
      rw [h.valid.kind?_eq htype]
      split
      · rw [h.valid.resolves.classOfInstance?_eq b.sound.graph.toWellFormed htype]
        split
        · next cls hcls =>
          have hside := hasEdge_of_classOfInstance? b.sound.graph.toMirrored hcls
          obtain ⟨s', hr, h', hg, -⟩ := h.advances_resolveClassWith hside
            (hpull (b.sound.graph.lt_size hside).1)
          exact ⟨s', hr, h', hg, True.intro⟩
        · exact h.advances_pure True.intro
      · next hk =>
        obtain ⟨s', hr, h', hg, -⟩ := h.advances_resolveInterfaceWith hk (hpull htype)
        exact ⟨s', hr, h', hg, True.intro⟩
      · exact h.advances_pure True.intro

theorem card_pending_le (b : Start) (s : Scene) : (b.pending s).card ≤ b.size := by
  have hle := Finset.card_filter_le (Finset.range b.size) fun x => ¬s.graph.isResolved x
  rwa [Finset.card_range] at hle

theorem pulls_pull (b : Start) (ds : List Diagnostic) (opened : List SymbolId) (s₀ : Scene) :
    b.Pulls ds opened s₀ (pull b.setting) := by
  intro base s hbase h _
  refine .graph_bind (h.advances_pullWithin hbase ?_)
  have hle := b.card_pending_le s
  have hsize := h.valid.size_le
  omega

theorem completes_resolveClass (hside : b.graph.hasEdge ⟨x, inst, .instanceType⟩) :
    b.Completes ds (resolveClass b.setting x) x := fun _ _ h =>
  h.advances_resolveClassWith hside fun _ => b.pulls_pull ds _ _

theorem completes_resolveInterface (hk : b.graph.kind? x = some .interface) :
    b.Completes ds (resolveInterface b.setting x) x := fun _ _ h =>
  h.advances_resolveInterfaceWith hk fun _ => b.pulls_pull ds _ _

end Start

end NameBinding
