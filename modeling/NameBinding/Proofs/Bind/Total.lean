import NameBinding.Proofs.Bind.Declarations

/-! # Binding succeeds

A step of binding can fail because a symbol or a declaration does not exist, because a class has no
instance side, or because it has one already. None of this can happen to a unit whose declarations
list declarations that exist: every scope is a symbol that the unit took before, and a class in
which a unit binds got its instance side when it was made.

Main statement: from a sound binding such a unit is bound without an error. -/

namespace NameBinding

open SymbolGraph

namespace SymbolGraph

variable {g : SymbolGraph}

/-- Declarations can be bound in a symbol. A class needs its instance side for that. -/
structure Hosts (g : SymbolGraph) (id : SymbolId) : Prop where
  lt_size : id < g.size
  side : g.kind? id = some .classType → ∃ inst, g.hasEdge ⟨id, inst, .instanceType⟩

theorem Takes.hosts {id : SymbolId} {d : DeclId} (h : g.Takes id d) : g.Hosts id where
  lt_size := h.lt_size
  side hk := (h.side hk).imp fun _ he => he.1

/-- The instance side of a class that hosts declarations is found, and exists. -/
theorem Hosts.exists_instanceType? {cls : SymbolId} (h : g.Hosts cls) (hg : g.Mirrored)
    (hk : g.kind? cls = some .classType) :
    ∃ inst, g.instanceType? cls = some inst ∧ inst < g.size := by
  obtain ⟨inst, he⟩ := h.side hk
  have hmem : inst ∈ g.targets cls .instanceType := hg.mem_targets_iff.mpr he
  cases hfirst : g.instanceType? cls with
  | none =>
      rw [instanceType?, firstTarget, List.head?_eq_none_iff] at hfirst
      exact absurd hmem (hfirst ▸ List.not_mem_nil)
  | some first =>
      have hfirst' : first ∈ g.targets cls .instanceType := List.mem_of_head? hfirst
      exact ⟨first, rfl, (hg.lt_size (hg.mem_targets_iff.mp hfirst')).2⟩

end SymbolGraph

/-- What stands inside can be bound there. -/
def BindM.Inside.Ready (g : SymbolGraph) (inside : BindM.Inside) : Prop :=
  ∀ id, inside = .scope (some id) → g.Hosts id

namespace Binding

variable {b b' : Binding} {α β : Type}

theorem Grows.hosts (h : b.Grows b') {id : SymbolId} (hs : b.graph.Hosts id) :
    b'.graph.Hosts id where
  lt_size := Nat.lt_of_lt_of_le hs.lt_size h.size_le
  side hk := by
    rw [h.kind hs.lt_size] at hk
    exact (hs.side hk).imp fun _ he => h.edge he

theorem Grows.ready (h : b.Grows b') {inside : BindM.Inside} (hi : inside.Ready b.graph) :
    inside.Ready b'.graph := fun id hid => h.hosts (hi id hid)

/-- From a binding the step succeeds, keeps it sound, takes nothing away, and answers as stated. -/
def Finishes (b : Binding) (m : BindM α) (post : α → Binding → Prop := fun _ _ => True) : Prop :=
  ∃ a b', m b = .ok a b' ∧ b'.Sound ∧ b.Grows b' ∧ post a b'

namespace Finishes

variable {m : BindM α} {post Q : α → Binding → Prop}

theorem of_binds (h : b.Binds m post) (hok : ∃ a b', m b = .ok a b') : b.Finishes m post := by
  obtain ⟨a, b', hr⟩ := hok
  exact ⟨a, b', hr, Contract.ok h rfl hr⟩

protected theorem weaken {post' : α → Binding → Prop} (h : b.Finishes m post)
    (hpost : ∀ a b', post a b' → post' a b') : b.Finishes m post' := by
  obtain ⟨a, b', hr, hb', hg, hp⟩ := h
  exact ⟨a, b', hr, hb', hg, hpost a b' hp⟩

protected theorem pure {a : α} (hb : b.Sound) (h : post a b) : b.Finishes (pure a) post :=
  ⟨a, b, rfl, hb, .refl b, h⟩

protected theorem bind {f : α → BindM β} {post : β → Binding → Prop} (hm : b.Finishes m Q)
    (hf : ∀ a b', b'.Sound → b.Grows b' → Q a b' → b'.Finishes (f a) post) :
    b.Finishes (m >>= f) post := by
  obtain ⟨a, b₁, hr, hb₁, hg, hq⟩ := hm
  obtain ⟨c, b₂, hr', hb₂, hg', hp⟩ := hf a b₁ hb₁ hg hq
  refine ⟨c, b₂, ?_, hb₂, hg.trans hg', hp⟩
  change EStateM.bind m f b = _
  rw [EStateM.bind, hr]
  exact hr'

protected theorem get_bind {f : Binding → BindM α} (h : b.Finishes (f b) post) :
    b.Finishes (get >>= f) post := h

protected theorem graph_bind {f : SymbolGraph → BindM α} (h : b.Finishes (f b.graph) post) :
    b.Finishes (BindM.graph >>= f) post := h

protected theorem forM {f : α → BindM PUnit} (as : List α) (hb : b.Sound)
    (h : ∀ a ∈ as, ∀ b', b'.Sound → b.Grows b' → b'.Finishes (f a)) : b.Finishes (as.forM f) := by
  induction as generalizing b with
  | nil => exact Finishes.pure hb True.intro
  | cons a as ih =>
      refine (h a List.mem_cons_self b hb (.refl b)).bind fun _ b₁ hb₁ hg _ => ih hb₁ ?_
      intro x hx b₂ hb₂ hg₂
      exact h x (List.mem_cons_of_mem a hx) b₂ hb₂ (hg.trans hg₂)

/-- What is passed on from one step to the next keeps a property. -/
protected theorem foldlM {f : β → α → BindM β} (inv : β → Binding → Prop) (as : List α) (init : β)
    (hb : b.Sound) (hinit : inv init b) (h : ∀ x, ∀ a ∈ as, ∀ b', b'.Sound → b.Grows b' → inv x b' →
      b'.Finishes (f x a) inv) : b.Finishes (as.foldlM f init) inv := by
  induction as generalizing b init with
  | nil => exact Finishes.pure hb hinit
  | cons a as ih =>
      rw [List.foldlM_cons]
      refine (h init a List.mem_cons_self b hb (.refl b) hinit).bind fun x b₁ hb₁ hg hx =>
        ih x hb₁ hx ?_
      intro y c hc b₂ hb₂ hg₂ hy
      exact h y c (List.mem_cons_of_mem a hc) b₂ hb₂ (hg.trans hg₂) hy

end Finishes

open BindM

variable {unit : UnitId} {scope : Option SymbolId} {d : Decl}

/-! ### Steps -/

theorem finishes_alloc (hb : b.Sound) (name : String) (kind : SymbolKind) (flags : Flags SymbolFlag) :
    b.Finishes (alloc name kind flags) fun id b' => id = b.graph.size ∧
      b'.graph = b.graph.alloc name kind flags :=
  .of_binds (binds_alloc hb name kind flags) ⟨_, _, rfl⟩

theorem finishes_make (hb : b.Sound) (name : String) {kind : SymbolKind} {flags : Flags SymbolFlag}
    (hclass : kind ≠ .classType) (hdecl : flags.AreDeclarable) :
    b.Finishes (alloc name kind flags) fun id b' => ∀ d, b'.graph.Takes id d :=
  .of_binds (binds_make hb name kind hclass hdecl) ⟨_, _, rfl⟩

/-- A step on the graph that succeeds. -/
theorem of_onGraph {step : GraphM α} {post : α → Binding → Prop} {a : α} {g : SymbolGraph}
    (h : b.Binds (onGraph step) post) (hstep : step b.graph = .ok a g) :
    b.Finishes (onGraph step) post :=
  .of_binds h ⟨a, ⟨g, b.program⟩, by rw [onGraph, hstep]⟩

theorem finishes_link (hb : b.Sound) {source target : SymbolId} {kind : EdgeKind}
    (hs : source < b.graph.size) (ht : target < b.graph.size) (harray : kind ≠ .arrayOf)
    (hside : kind ≠ .instanceType) : b.Finishes (link source target kind) := by
  refine .of_binds (binds_link hb source target harray hside)
    ⟨(), ⟨b.graph.addEdge ⟨source, target, kind⟩, b.program⟩, ?_⟩
  simp only [link, bind, EStateM.bind, onGraph, GraphM.link_eq_ok kind hs ht]
  rfl

theorem finishes_contribute (hb : b.Sound) {symbol : SymbolId} {d : DeclId}
    (hknown : (b.program.decl? d).isSome) (ht : b.graph.Takes symbol d) :
    b.Finishes (contribute symbol d) fun _ b' => d ∈ b'.graph.declarations symbol :=
  of_onGraph (binds_contribute hb hknown ht) (GraphM.declare_eq_ok d ht.lt_size)

theorem finishes_record (hb : b.Sound) {symbol : SymbolId} {d : DeclId}
    (hknown : (b.program.decl? d).isSome) (ht : b.graph.Takes symbol d) :
    b.Finishes (record d symbol) := by
  unfold record
  refine (finishes_contribute hb hknown ht).bind fun _ b₁ hb₁ hg hd => Finishes.get_bind ?_
  have hsome : ¬(b₁.program.decl? d).isNone := by
    rw [← Option.not_isSome, hg.known hknown]
    simp
  dsimp only
  rw [if_neg hsome]
  exact .of_binds (binds_bindTo hb₁ hd) ⟨_, _, rfl⟩

theorem finishes_addTopLevel (hb : b.Sound) (name : String) (symbol : SymbolId) :
    b.Finishes (addTopLevel unit name symbol) :=
  .of_binds (binds_addTopLevel hb unit name symbol) ⟨_, _, rfl⟩

theorem finishes_owner (hb : b.Sound) (hscope : ∀ id, scope = some id → b.graph.Hosts id) :
    b.Finishes (owner scope d) fun owner b' => ∀ id, owner = some id → id < b'.graph.size := by
  unfold owner
  split
  · exact Finishes.pure hb (by simp)
  · next scope =>
    have hhosts := hscope scope rfl
    refine Finishes.graph_bind ?_
    split
    · next hmember =>
      simp only [Bool.and_eq_true, beq_iff_eq] at hmember
      obtain ⟨inst, hinst, hlt⟩ :=
        hhosts.exists_instanceType? hb.graph.toMirrored hmember.2
      rw [hinst]
      exact Finishes.pure hb fun id hid => Option.some.inj hid ▸ hlt
    · exact Finishes.pure hb fun id hid => Option.some.inj hid ▸ hhosts.lt_size

theorem finishes_attach (hb : b.Sound) {owner : Option SymbolId} {symbol : SymbolId}
    (howner : ∀ id, owner = some id → id < b.graph.size) (hsymbol : symbol < b.graph.size) :
    b.Finishes (attach unit owner symbol d) := by
  unfold attach
  split
  · split
    · exact finishes_addTopLevel hb d.name symbol
    · exact Finishes.pure hb True.intro
  · next owner =>
    have hlt := howner owner rfl
    refine Finishes.graph_bind ?_
    split
    · next kind hkind =>
      have hm : kind.isMembership := by
        split at hkind
        · exact absurd hkind (by simp)
        · obtain ⟨_, -, hkind⟩ := Option.bind_eq_some_iff.mp hkind
          exact isMembership_of_membership? hkind
      refine finishes_link hb hlt hsymbol ?_ ?_
      · rintro rfl
        simp [EdgeKind.isMembership] at hm
      · rintro rfl
        simp [EdgeKind.isMembership] at hm
    · exact finishes_link hb hsymbol hlt (by decide) (by decide)

theorem finishes_mergeOrCreate (hb : b.Sound) (hscope : ∀ id, scope = some id → b.graph.Hosts id)
    {kind : SymbolKind} {accept : SymbolKind → Flags SymbolFlag → Bool} (hkind : kind ≠ .classType)
    (haccept : ∀ k flags, accept k flags → k ≠ .classType) :
    b.Finishes (mergeOrCreate unit scope d kind accept) fun id b' => ∀ x, b'.graph.Takes id x := by
  unfold mergeOrCreate
  refine (finishes_owner hb hscope).bind fun owner b₁ hb₁ _ howner => Finishes.get_bind ?_
  split
  · next symbol hm =>
    have ht := takes_of_mergeable? hb₁ haccept hm
    dsimp only
    split
    · exact (finishes_addTopLevel hb₁ d.name symbol).bind fun _ _ hb₂ hg _ =>
        Finishes.pure hb₂ fun x => hg.takes (ht x)
    · exact Finishes.pure hb₁ ht
  · refine (finishes_make hb₁ d.name hkind d.flags.areDeclarable_toSymbolFlags).bind
      fun symbol _ hb₂ hg₂ ht => ?_
    exact (finishes_attach hb₂ (fun id hid => Nat.lt_of_lt_of_le (howner id hid) hg₂.size_le)
      (ht d.id).lt_size).bind fun _ _ hb₃ hg _ => Finishes.pure hb₃ fun x => hg.takes (ht x)

/-! ### The kinds of declarations -/

section Kinds

variable (hb : b.Sound) (hd : (b.program.decl? d.id).isSome)
  (hscope : ∀ id, scope = some id → b.graph.Hosts id)

include hb hd

theorem finishes_bindParameterField {inst : SymbolId} (hinst : inst < b.graph.size) :
    b.Finishes (bindParameterField inst d) := by
  unfold bindParameterField
  refine (finishes_make hb d.name (by decide) d.flags.areDeclarable_toSymbolFlags).bind
    fun field b₁ hb₁ hg₁ ht => ?_
  refine (finishes_contribute hb₁ (hg₁.known hd) (ht d.id)).bind fun _ b₂ hb₂ hg₂ _ => ?_
  have hinst₂ : inst < b₂.graph.size := Nat.lt_of_lt_of_le hinst (hg₁.trans hg₂).size_le
  have hfield := (hg₂.takes (ht d.id)).lt_size
  split
  · exact finishes_link hb₂ hinst₂ hfield (by decide) (by decide)
  · exact finishes_link hb₂ hinst₂ hfield (by decide) (by decide)

theorem finishes_bindArgument {signature : SymbolId} {fieldsOf : Option SymbolId}
    (hsignature : signature < b.graph.size)
    (hfields : ∀ inst, fieldsOf = some inst → inst < b.graph.size) :
    b.Finishes (bindArgument signature fieldsOf d) := by
  unfold bindArgument
  have hflags := (d.flags ∩ Flags.single .optional).areDeclarable_toSymbolFlags
  refine (finishes_make hb d.name (by decide) hflags).bind fun param b₁ hb₁ hg₁ ht => ?_
  refine (finishes_record hb₁ (hg₁.known hd) (ht d.id)).bind fun _ b₂ hb₂ hg₂ _ => ?_
  have hg := hg₁.trans hg₂
  refine (finishes_link hb₂ (Nat.lt_of_lt_of_le hsignature hg.size_le) (hg₂.takes (ht d.id)).lt_size
    (by decide) (by decide)).bind fun _ b₃ hb₃ hg₃ _ => ?_
  split
  · next inst =>
    split
    · exact finishes_bindParameterField hb₃ ((hg.trans hg₃).known hd)
        (Nat.lt_of_lt_of_le (hfields inst rfl) (hg.trans hg₃).size_le)
    · exact Finishes.pure hb₃ True.intro
  · exact Finishes.pure hb₃ True.intro

/-- The declarations that are listed must exist, whether or not they are arguments. -/
theorem finishes_bindSignature (hchildren : ∀ x ∈ d.children, (b.program.decl? x).isSome)
    {flags : Flags SymbolFlag} (hflags : flags.AreDeclarable) {fieldsOf : Option SymbolId}
    (hfields : ∀ inst, fieldsOf = some inst → inst < b.graph.size) :
    b.Finishes (bindSignature d flags fieldsOf) fun id b' => ∀ x, b'.graph.Takes id x := by
  unfold bindSignature
  refine (finishes_make hb d.name (by decide) hflags).bind fun signature b₁ hb₁ hg₁ ht => ?_
  refine (finishes_contribute hb₁ (hg₁.known hd) (ht d.id)).bind fun _ b₂ hb₂ hg₂ _ => ?_
  refine Finishes.bind (Q := fun _ _ => True) (Finishes.forM d.children hb₂ ?_)
    fun _ b₃ hb₃ hg₃ _ => Finishes.pure hb₃ fun x => hg₃.takes (hg₂.takes (ht x))
  intro child hchild b' hb' hg'
  have hg := hg₁.trans (hg₂.trans hg')
  obtain ⟨arg, harg⟩ := Option.isSome_iff_exists.mp (hg.known (hchildren child hchild))
  have hid := hb'.program.id_eq harg
  refine Finishes.get_bind ?_
  rw [harg]
  dsimp only
  split
  · refine finishes_bindArgument hb' (by rw [hid, harg]; rfl)
      ((hg₂.trans hg').takes (ht d.id)).lt_size fun inst hinst => ?_
    exact Nat.lt_of_lt_of_le (hfields inst hinst) hg.size_le
  · exact Finishes.pure hb' True.intro

include hscope

theorem finishes_create {kind : SymbolKind} (hkind : kind ≠ .classType) :
    b.Finishes (create unit scope d kind) := by
  unfold create
  refine (finishes_owner hb hscope).bind fun owner b₁ hb₁ hg₁ howner => ?_
  refine (finishes_make hb₁ d.name hkind d.flags.areDeclarable_toSymbolFlags).bind
    fun symbol b₂ hb₂ hg₂ ht => ?_
  refine (finishes_attach hb₂ (fun id hid => Nat.lt_of_lt_of_le (howner id hid) hg₂.size_le)
    (ht d.id).lt_size).bind fun _ b₃ hb₃ hg₃ _ => ?_
  exact finishes_record hb₃ ((hg₁.trans (hg₂.trans hg₃)).known hd) (hg₃.takes (ht d.id))

/-- A declaration is recorded on the symbol that it merges with or makes, and opens it. -/
theorem finishes_mergeOrCreate_record {kind : SymbolKind}
    {accept : SymbolKind → Flags SymbolFlag → Bool} (hkind : kind ≠ .classType)
    (haccept : ∀ k flags, accept k flags → k ≠ .classType) : b.Finishes (do
      let symbol ← mergeOrCreate unit scope d kind accept
      record d.id symbol
      return .scope (some symbol) : BindM Inside) fun inside b' => inside.Ready b'.graph := by
  refine (finishes_mergeOrCreate hb hscope hkind haccept).bind fun symbol b₁ hb₁ hg₁ ht => ?_
  refine (finishes_record hb₁ (hg₁.known hd) (ht d.id)).bind fun _ b₂ hb₂ hg₂ _ => ?_
  refine Finishes.pure hb₂ ?_
  rintro id ⟨⟩
  exact (hg₂.takes (ht d.id)).hosts

theorem finishes_bindMerged {kind : SymbolKind} (hkind : kind ≠ .classType) :
    b.Finishes (bindMerged unit scope d kind) fun inside b' => inside.Ready b'.graph := by
  refine finishes_mergeOrCreate_record hb hd hscope hkind fun k _ hk => ?_
  rw [beq_iff_eq.mp hk]
  exact hkind

theorem finishes_bindAccessor :
    b.Finishes (bindAccessor unit scope d) fun inside b' => inside.Ready b'.graph := by
  refine finishes_mergeOrCreate_record hb hd hscope (by decide) fun k _ hk => ?_
  simp only [Bool.and_eq_true, beq_iff_eq] at hk
  simp [hk.1]

theorem finishes_bindValue {kind : SymbolKind} (hkind : kind ≠ .classType) :
    b.Finishes (bindValue unit scope d kind) fun inside b' => inside.Ready b'.graph := by
  unfold bindValue
  exact (finishes_create hb hd hscope hkind).bind fun _ _ hb₁ _ _ => Finishes.pure hb₁ (by
    rintro id ⟨⟩)

/-- The new class has no instance side before it gets the one made with it. -/
theorem finishes_bindClass :
    b.Finishes (bindClass unit scope d) fun inside b' => inside.Ready b'.graph := by
  unfold bindClass
  have hflags := d.flags.areDeclarable_toSymbolFlags
  refine (finishes_owner hb hscope).bind fun owner b₁ hb₁ hg₁ howner => ?_
  refine (finishes_alloc hb₁ d.name .classType d.flags.toSymbolFlags).bind
    fun cls b₂ hb₂ hg₂ hcls => ?_
  refine (finishes_alloc hb₂ d.name .instanceType d.flags.toSymbolFlags).bind
    fun inst b₃ hb₃ hg₃ hinst => ?_
  obtain ⟨rfl, hg₂eq⟩ := hcls
  obtain ⟨rfl, hg₃eq⟩ := hinst
  have hlt₂ : b₁.graph.size < b₂.graph.size := by simp [hg₂eq]
  have hlt₃ : b₂.graph.size < b₃.graph.size := by simp [hg₃eq]
  have hclsKind : b₃.graph.kind? b₁.graph.size = some .classType := by
    rw [hg₃.kind hlt₂, hg₂eq, kind?_eq, label?_alloc, if_pos rfl]
    rfl
  have hclsDecl : b₃.graph.IsDeclarable b₁.graph.size := by
    rw [IsDeclarable, hg₃.has _ hlt₂, hg₃.has _ hlt₂, hg₂eq, has_eq, has_eq, label?_alloc,
      if_pos rfl]
    exact hflags
  have hclsDecls : b₃.graph.declarations b₁.graph.size = [] := by
    rw [hg₃eq, declarations_alloc, hg₂eq, declarations_alloc, declarations_eq_nil (Nat.le_refl _)]
  have hclsSide : b₃.graph.instanceType? b₁.graph.size = none := by
    rw [instanceType?, firstTarget, targets_eq, hg₃eq, outgoing_alloc, hg₂eq, outgoing_alloc,
      outgoing_eq_nil (Nat.le_refl _)]
    rfl
  have hinstKind : b₃.graph.kind? b₂.graph.size = some .instanceType := by
    rw [hg₃eq, kind?_eq, label?_alloc, if_pos rfl]
    rfl
  have hinstDecl : b₃.graph.IsDeclarable b₂.graph.size := by
    rw [hg₃eq, IsDeclarable, has_eq, has_eq, label?_alloc, if_pos rfl]
    exact hflags
  refine (of_onGraph (binds_setInstanceType hb₃ hclsKind hinstKind hclsDecls)
    (GraphM.setInstanceType_eq_ok hclsSide (Nat.lt_trans hlt₂ hlt₃) hlt₃)).bind
    fun _ b₄ hb₄ hg₄ hside => ?_
  have hg := hg₁.trans (hg₂.trans (hg₃.trans hg₄))
  refine (finishes_contribute hb₄ (hg.known hd)
    (hg₄.takes (takes_of_kind hinstKind (by decide) hinstDecl d.id))).bind
    fun _ b₅ hb₅ hg₅ hlisted => ?_
  have hg₃₅ := hg₄.trans hg₅
  refine (finishes_attach hb₅
    (fun id hid => Nat.lt_of_lt_of_le (howner id hid) (hg₂.trans (hg₃.trans hg₃₅)).size_le)
    (Nat.lt_of_lt_of_le hlt₂ (hg₃.trans hg₃₅).size_le)).bind fun _ b₆ hb₆ hg₆ _ => ?_
  have hg₃₆ := hg₃₅.trans hg₆
  have htakes : b₆.graph.Takes b₁.graph.size d.id :=
    { lt_size := Nat.lt_of_lt_of_le hlt₂ (hg₃.trans hg₃₆).size_le
      declarable := by
        rw [IsDeclarable, hg₃₆.has _ (Nat.lt_trans hlt₂ hlt₃), hg₃₆.has _ (Nat.lt_trans hlt₂ hlt₃)]
        exact hclsDecl
      side := fun _ => ⟨b₂.graph.size, (hg₅.trans hg₆).edge hside, hg₆.declarations _ hlisted⟩ }
  refine (finishes_record hb₆ ((hg.trans (hg₅.trans hg₆)).known hd) htakes).bind
    fun _ _ hb₇ hg₇ _ => Finishes.pure hb₇ ?_
  rintro id ⟨⟩
  exact (hg₇.takes htakes).hosts

variable (hchildren : ∀ x ∈ d.children, (b.program.decl? x).isSome)

include hchildren

theorem finishes_bindFunction :
    b.Finishes (bindFunction unit scope d) fun inside b' => inside.Ready b'.graph := by
  rw [bindFunction_eq]
  refine (finishes_mergeOrCreate hb hscope d.functionKind_ne_classType ?_).bind
    fun function b₁ hb₁ hg₁ ht => ?_
  · intro k _ hk
    rw [beq_iff_eq.mp hk]
    exact d.functionKind_ne_classType
  refine (finishes_record hb₁ (hg₁.known hd) (ht d.id)).bind fun _ b₂ hb₂ hg₂ _ => ?_
  have hg := hg₁.trans hg₂
  refine Finishes.graph_bind ?_
  refine (finishes_bindSignature hb₂ (hg.known hd) (fun x hx => hg.known (hchildren x hx)) ?_
    (by simp)).bind fun signature b₃ hb₃ hg₃ hsignature => ?_
  · split <;> decide
  have hfunction := (hg₂.trans hg₃).takes (ht d.id)
  refine (finishes_link hb₃ hfunction.lt_size (hsignature d.id).lt_size (by decide)
    (by decide)).bind fun _ b₄ hb₄ hg₄ _ => Finishes.pure hb₄ ?_
  rintro id ⟨⟩
  exact (hg₄.takes hfunction).hosts

omit hd hchildren in
theorem finishes_constructedType : b.Finishes (constructedType scope) fun inst b' =>
    ∀ id, inst = some id → id < b'.graph.size := by
  unfold constructedType
  refine Finishes.graph_bind ?_
  split
  · exact Finishes.pure hb (by simp)
  · next cls =>
    split
    · next hclass =>
      obtain ⟨inst, hinst, hlt⟩ :=
        (hscope cls rfl).exists_instanceType? hb.graph.toMirrored (beq_iff_eq.mp hclass)
      rw [hinst]
      exact Finishes.pure hb fun id hid => Option.some.inj hid ▸ hlt
    · exact Finishes.pure hb (by simp)

omit hscope hchildren in
theorem finishes_hangSignature {signature : SymbolId} {owner : Option SymbolId} {kind : EdgeKind}
    (hk : kind.isSignature) (ht : b.graph.Takes signature d.id)
    (howner : ∀ id, owner = some id → id < b.graph.size) {inside : Inside}
    (hinside : ∀ id, inside = .scope (some id) → id = signature) :
    b.Finishes (hangSignature kind d.id inside owner signature)
      fun inside b' => inside.Ready b'.graph := by
  have hlast : ∀ b', b'.Sound → b.Grows b' → b'.Finishes
      (do record d.id signature; return inside : BindM Inside)
      fun inside b' => inside.Ready b'.graph := by
    intro b₁ hb₁ hg₁
    refine (finishes_record hb₁ (hg₁.known hd) (hg₁.takes ht)).bind fun _ b₂ hb₂ hg₂ _ =>
      Finishes.pure hb₂ fun id hid => ?_
    rw [hinside id hid]
    exact ((hg₁.trans hg₂).takes ht).hosts
  unfold hangSignature
  split
  · next owner =>
    refine (finishes_link hb (howner owner rfl) ht.lt_size ?_ ?_).bind
      fun _ b₁ hb₁ hg₁ _ => hlast b₁ hb₁ hg₁
    · rintro rfl
      simp [EdgeKind.isSignature] at hk
    · rintro rfl
      simp [EdgeKind.isSignature] at hk
  · exact hlast b hb (.refl b)

theorem finishes_bindConstructor :
    b.Finishes (bindConstructor scope d) fun inside b' => inside.Ready b'.graph := by
  rw [bindConstructor_eq]
  refine (finishes_constructedType hb hscope).bind fun fieldsOf b₁ hb₁ hg₁ hfields => ?_
  refine (finishes_bindSignature hb₁ (hg₁.known hd) (fun x hx => hg₁.known (hchildren x hx))
    d.areDeclarable_constructorFlags hfields).bind fun signature b₂ hb₂ hg₂ ht => ?_
  have hg := hg₁.trans hg₂
  exact finishes_hangSignature hb₂ (hg.known hd) rfl (ht d.id)
    (fun id hid => (hg.hosts (hscope id hid)).lt_size) fun id hid => by
      injection hid with hid
      exact (Option.some.inj hid).symm

omit hscope in
theorem finishes_bindSignatureIn {owner : Option SymbolId}
    (howner : ∀ id, owner = some id → id < b.graph.size) :
    b.Finishes (bindSignatureIn d owner) fun inside b' => inside.Ready b'.graph := by
  refine (finishes_bindSignature hb hd hchildren ?_ (by simp)).bind
    fun signature b₁ hb₁ hg₁ ht =>
      finishes_hangSignature hb₁ (hg₁.known hd) d.isSignature_signatureEdge (ht d.id)
        (fun id hid => Nat.lt_of_lt_of_le (howner id hid) hg₁.size_le) (by simp)
  split <;> decide

theorem finishes_bindMemberSignature :
    b.Finishes (bindMemberSignature scope d) fun inside b' => inside.Ready b'.graph := by
  rw [bindMemberSignature_eq]
  split
  · exact finishes_bindSignatureIn hb hd hchildren fun id hid => (hscope id hid).lt_size
  · exact (finishes_owner hb hscope).bind fun owner b₁ hb₁ hg₁ howner =>
      finishes_bindSignatureIn hb₁ (hg₁.known hd) (fun x hx => hg₁.known (hchildren x hx)) howner

/-- One case for each kind of declaration. -/
theorem finishes_bindDecl :
    b.Finishes (bindDecl unit scope d) fun inside b' => inside.Ready b'.graph := by
  unfold bindDecl
  split
  · refine Finishes.pure hb fun id hid => hscope id ?_
    injection hid
  iterate 3 exact finishes_bindMerged hb hd hscope (by decide)
  · exact finishes_bindClass hb hd hscope
  iterate 3
    split
    · exact finishes_bindConstructor hb hd hscope hchildren
    · exact finishes_bindFunction hb hd hscope hchildren
  iterate 2
    split
    · exact finishes_bindAccessor hb hd hscope
    · exact finishes_bindValue hb hd hscope (by decide)
  iterate 2 exact finishes_bindValue hb hd hscope (by decide)
  iterate 3 exact finishes_bindMemberSignature hb hd hscope hchildren
  · exact Finishes.pure hb (by rintro id ⟨⟩)

end Kinds

/-! ### Whole units -/

/-- All scopes that were opened are ready. -/
def AllReady (opened : Array Inside) (b : Binding) : Prop :=
  ∀ inside ∈ opened, inside.Ready b.graph

theorem AllReady.push {opened : Array Inside} (h : AllReady opened b) {inside : Inside}
    (hi : inside.Ready b.graph) : AllReady (opened.push inside) b := by
  intro x hx
  rcases Array.mem_push.mp hx with hx | rfl
  · exact h x hx
  · exact hi

theorem AllReady.around {opened : Array Inside} (h : AllReady opened b) (d : Decl) :
    (around opened d).Ready b.graph := by
  unfold BindM.around
  split
  · next parent _ =>
    cases hx : opened[parent.index]? with
    | none => exact fun id hid => by simp at hid
    | some inside => exact h inside (Array.mem_of_getElem? hx)
  · exact fun id hid => by simp at hid

theorem finishes_bindNext (hb : b.Sound) (hd : (b.program.decl? d.id).isSome)
    (hchildren : ∀ x ∈ d.children, (b.program.decl? x).isSome) {opened : Array Inside}
    (hopened : AllReady opened b) : b.Finishes (bindNext unit opened d) AllReady := by
  have haround := hopened.around d
  unfold bindNext
  split
  · exact Finishes.pure hb (hopened.push (by rintro id ⟨⟩))
  · next scope heq =>
    refine (finishes_bindDecl hb hd (fun id hid => haround id (by rw [heq, hid])) hchildren).bind
      fun inside b₁ hb₁ hg₁ hinside => Finishes.pure hb₁ ?_
    exact AllReady.push (fun x hx => hg₁.ready (hopened x hx)) hinside

/-- A unit with a root is bound if its declarations list declarations of the unit. -/
theorem finishes_bindUnit (hb : b.Sound) {u : CompilationUnit} (hu : u ∈ b.program.units)
    (hnested : u.Nested) (hroot : (u.decl? u.rootDecl).isSome) : b.Finishes (bindUnit u.id) := by
  have hknown : ∀ {x}, (u.decl? x).isSome → (b.program.decl? x).isSome := by
    intro x hx
    obtain ⟨y, hy⟩ := Option.isSome_iff_exists.mp hx
    exact Option.isSome_iff_exists.mpr ⟨y, hb.program.decl?_eq_some_iff.mpr ⟨u, hu, hy⟩⟩
  have hsome : ¬(u.decl? u.rootDecl).isNone := by
    rw [← Option.not_isSome, hroot]
    simp
  unfold bindUnit
  refine Finishes.get_bind ?_
  rw [hb.program.unitById?_eq_some_iff.mpr ⟨hu, rfl⟩]
  dsimp only
  rw [if_neg hsome]
  refine Finishes.bind (Finishes.foldlM AllReady _ _ hb (by simp [AllReady]) ?_)
    fun _ _ hb' _ _ => Finishes.pure hb' True.intro
  intro opened d hd b' hb' hg hopened
  obtain ⟨i, hi⟩ := List.mem_iff_getElem?.mp hd
  rw [Array.getElem?_toList] at hi
  refine finishes_bindNext hb' (hg.known ?_) (fun x hx => hg.known (hknown ?_)) hopened
  · rw [hb.program.decl?_id hu hd]
    rfl
  · obtain ⟨child, hchild, -⟩ := hnested.child hi hx
    rw [hchild]
    rfl

end Binding

end NameBinding
