import NameBinding.Proofs.Resolve.Demand

/-! # Array types while names are resolved

An array type is known by one edge, to its element type. Nothing protects that edge but that nobody
removes it, so it is told here what resolving can write around array types: it makes at most one for
an element type, it leaves all of them where they are, and the only other edges that it draws from
them lead to what is there from the start. Main statement: this holds of every demand, also of one
that asks for an array type as if it were a value, an alias or a type with bases.

What an invalid demand does to an array type depends on the declarations, of which it has none. So the
lists of known symbols below say of which symbols a step may draw edges, and a step learns of one by
making it, or by reading its declarations or what it is a side of. -/

namespace NameBinding

open SymbolGraph

namespace SymbolGraph

variable {g g' : SymbolGraph} {a x y : SymbolId}

/-- The symbol has an element type. -/
def IsArrayType (g : SymbolGraph) (a : SymbolId) : Prop := ∃ x, g.hasEdge ⟨a, x, .arrayOf⟩

/-- Array types are built over one element type each. Their other edges come from resolving them, and
lead to what is there from the start. -/
structure Elemental (g : SymbolGraph) : Prop extends g.Sound where
  kind : ∀ {a}, g.IsArrayType a → g.kind? a = some .array
  made : ∀ {a}, g.IsArrayType a → g.has a .synthesized ∧ ¬g.has a .wellKnown
  sole : g.OneTarget .arrayOf
  only : ∀ {e : Edge}, g.hasEdge e → g.IsArrayType e.source →
    e.kind = .arrayOf ∨ e.target < WellKnown.count

namespace Elemental

theorem ne_array_of_declared (h : g.Elemental) (hx : g.declarations x ≠ []) :
    ¬g.IsArrayType x := by
  intro ha
  obtain ⟨d, hd⟩ := List.exists_mem_of_ne_nil _ hx
  exact (h.declarable hd).1 (h.made ha).1

theorem ne_array_of_kind (h : g.Elemental) {kind : SymbolKind} (hk : g.kind? x = some kind)
    (hne : kind ≠ .array) : ¬g.IsArrayType x := fun ha =>
  hne (Option.some.inj (hk.symm.trans (h.kind ha)))

/-- The instance side of a class is no array type. -/
theorem ne_array_of_side (h : g.Elemental) (hx : g.instanceType? y = some x) :
    ¬g.IsArrayType x := by
  have he : g.hasEdge ⟨y, x, .instanceType⟩ := h.mem_targets_iff.mp (List.mem_of_head? hx)
  exact h.ne_array_of_kind (h.isSide he).2.1 (by decide)

/-- No array type is new, and what is drawn from one leads to what is there from the start. -/
theorem of_edges (h : g.Elemental) (hg : g'.Sound)
    (hlabel : ∀ x, x < g.size → g'.label? x = g.label? x)
    (hedge : ∀ {e : Edge}, g'.hasEdge e → g.hasEdge e ∨
      e.kind ≠ .arrayOf ∧ (g.IsArrayType e.source → e.target < WellKnown.count)) :
    g'.Elemental := by
  have harray : ∀ {a x}, g'.hasEdge ⟨a, x, .arrayOf⟩ → g.hasEdge ⟨a, x, .arrayOf⟩ := fun he =>
    (hedge he).resolve_right fun hnew => hnew.1 rfl
  have hold : ∀ {a}, g'.IsArrayType a → g.IsArrayType a := fun ⟨x, he⟩ => ⟨x, harray he⟩
  have hlt : ∀ {a}, g.IsArrayType a → a < g.size := fun ⟨_, he⟩ => (h.lt_size he).1
  constructor
  · exact hg
  · intro a ha
    rw [kind?_congr (hlabel a (hlt (hold ha)))]
    exact h.kind (hold ha)
  · intro a ha
    rw [has_congr (hlabel a (hlt (hold ha))), has_congr (hlabel a (hlt (hold ha)))]
    exact h.made (hold ha)
  · exact fun _ _ _ hx hy => h.sole _ _ _ (harray hx) (harray hy)
  · intro e he ha
    rcases hedge he with he | hnew
    · exact h.only he (hold ha)
    · exact .inr (hnew.2 (hold ha))

end Elemental

/-! ### What is written -/

/-- A new array type of an element type, which can be the array type itself. -/
def withArray (g : SymbolGraph) (element : SymbolId) : SymbolGraph :=
  (g.alloc (g.name element ++ "[]") .array (Flags.single .synthesized)).addEdge
    ⟨g.size, element, .arrayOf⟩

/-- One write of resolving. From an array type no edge is drawn but to what is there from the start,
and nothing comes to contain one. -/
inductive Move (g : SymbolGraph) : SymbolGraph → Prop where
  | mark (x : SymbolId) : Move g (g.setResolved x true)
  | make (name : String) (kind : SymbolKind) (flags : Flags SymbolFlag) :
      Move g (g.alloc name kind flags)
  | drop (e : Edge) (hk : e.kind.isResolution) : Move g (g.removeEdge e)
  | draw (e : Edge) (hs : e.source < g.size) (ht : e.target < g.size) (hk : e.kind ≠ .arrayOf)
      (hside : e.kind ≠ .instanceType)
      (hsource : g.IsArrayType e.source → e.target < WellKnown.count)
      (htarget : e.kind.isMembership → ¬g.IsArrayType e.target) : Move g (g.addEdge e)
  /-- An element type gets its first array type. -/
  | array (element : SymbolId) (ht : element ≤ g.size)
      (hfirst : g.sources element .arrayOf = []) : Move g (g.withArray element)

/-- What some writes lead to. -/
def Moves (g g' : SymbolGraph) : Prop := Relation.ReflTransGen Move g g'

section WithArray

variable (g : SymbolGraph) {element : SymbolId}

theorem size_withArray (element : SymbolId) : (g.withArray element).size = g.size + 1 := by
  rw [withArray, size_addEdge, size_alloc]

theorem label?_withArray (element : SymbolId) (hx : x < g.size) :
    (g.withArray element).label? x = g.label? x := by
  rw [withArray, label?_addEdge, label?_alloc, if_neg (Nat.ne_of_lt hx)]

theorem hasEdge_withArray (ht : element ≤ g.size) {e : Edge} :
    (g.withArray element).hasEdge e ↔ g.hasEdge e ∨ e = ⟨g.size, element, .arrayOf⟩ := by
  have hsize := size_alloc g (g.name element ++ "[]") .array (Flags.single .synthesized)
  have hs : g.size < (g.alloc (g.name element ++ "[]") .array (Flags.single .synthesized)).size :=
    hsize ▸ Nat.lt_succ_self _
  rw [withArray, hasEdge_addEdge_of_plain hs (hsize ▸ Nat.lt_succ_of_le ht)
    (by simp [EdgeKind.isMembership])]
  simp [hasEdge]

end WithArray

/-- The new symbol is the array type of the element type, and nothing else is new. -/
theorem Elemental.withArray (h : g.Elemental) {element : SymbolId} (ht : element ≤ g.size)
    (hfirst : g.sources element .arrayOf = []) : (g.withArray element).Elemental := by
  have hedge : ∀ {e : Edge}, (g.withArray element).hasEdge e → g.hasEdge e ∨
      e = ⟨g.size, element, .arrayOf⟩ := (hasEdge_withArray g ht).mp
  -- What is an array type was one, or is the new symbol.
  have harray : ∀ {a}, (g.withArray element).IsArrayType a →
      g.IsArrayType a ∧ a < g.size ∨ a = g.size := by
    rintro a ⟨x, he⟩
    rcases hedge he with he | heq
    · exact .inl ⟨⟨x, he⟩, (h.lt_size he).1⟩
    · exact .inr (congrArg Edge.source heq)
  have hlabel : (g.withArray element).label? g.size =
      (g.alloc (g.name element ++ "[]") .array (Flags.single .synthesized)).label? g.size := by
    rw [SymbolGraph.withArray, label?_addEdge]
  have hsize := size_alloc g (g.name element ++ "[]") .array (Flags.single .synthesized)
  constructor
  · refine (h.alloc _ _ _).addArray (hsize ▸ Nat.lt_succ_self _) (hsize ▸ Nat.lt_succ_of_le ht) rfl ?_
    rw [sources_eq, incoming_alloc, ← sources_eq]
    exact hfirst
  · intro a ha
    rcases harray ha with ⟨ha, hlt⟩ | rfl
    · rw [kind?_congr (label?_withArray g element hlt)]
      exact h.kind ha
    · rw [kind?_congr hlabel, kind?_eq, label?_alloc, if_pos rfl]
      rfl
  · intro a ha
    rcases harray ha with ⟨ha, hlt⟩ | rfl
    · rw [has_congr (label?_withArray g element hlt), has_congr (label?_withArray g element hlt)]
      exact h.made ha
    · rw [has_congr hlabel, has_congr hlabel, has_eq, has_eq, label?_alloc, if_pos rfl]
      exact ⟨by simpa [Symbol.has] using ResolveM.has_synthesized_single,
        by simpa [Symbol.has] using ResolveM.not_has_wellKnown_single⟩
  · intro a x y hx hy
    rcases hedge hx with hx | hx
    · rcases hedge hy with hy | hy
      · exact h.sole _ _ _ hx hy
      · exact absurd (congrArg Edge.source hy) (Nat.ne_of_lt (h.lt_size hx).1)
    · rcases hedge hy with hy | hy
      · exact absurd (congrArg Edge.source hx) (Nat.ne_of_lt (h.lt_size hy).1)
      · exact (congrArg Edge.target hx).trans (congrArg Edge.target hy).symm
  · intro e he ha
    rcases hedge he with he | rfl
    · rcases harray ha with ⟨ha, -⟩ | heq
      · exact h.only he ha
      · exact absurd heq (Nat.ne_of_lt (h.lt_size he).1)
    · exact .inl rfl

namespace Move

theorem elemental (h : g.Move g') (hg : g.Elemental) : g'.Elemental := by
  cases h with
  | mark x =>
      exact hg.of_edges (hg.setResolved x true) (fun y _ => label?_setResolved g x true y)
        fun he => .inl (by rwa [hasEdge_setResolved] at he)
  | make name kind flags =>
      refine hg.of_edges (hg.alloc name kind flags) (fun y hy => ?_) fun he => .inl ?_
      · rw [label?_alloc, if_neg (Nat.ne_of_lt hy)]
      · simpa [hasEdge] using he
  | drop e hk =>
      exact hg.of_edges (Resolves.sound (.change (.refl ⟨{}, {}⟩ g) (.drop e hk)) hg.toSound)
        (fun y _ => label?_removeEdge g e y) fun he => .inl (hg.hasEdge_removeEdge.mp he).1
  | draw e hs ht hk hside hsource htarget =>
      refine hg.of_edges (hg.addEdge hs ht hk hside) (fun y _ => label?_addEdge g e y) fun he => ?_
      rcases (hasEdge_addEdge hs ht).mp he with he | rfl | ⟨hm, rfl⟩
      · exact .inl he
      · exact .inr ⟨hk, hsource⟩
      · exact .inr ⟨by simp [Edge.backward], fun ha => absurd ha (htarget hm)⟩
  | array element ht hfirst => exact hg.withArray ht hfirst

theorem size_le (h : g.Move g') : g.size ≤ g'.size := by
  cases h with
  | make name kind flags => simp
  | array element => simp [size_withArray]
  | _ => simp

/-- Array types stay what they are. -/
theorem hasEdge_arrayOf (h : g.Move g') (hg : g.WellFormed) (he : g.hasEdge ⟨a, x, .arrayOf⟩) :
    g'.hasEdge ⟨a, x, .arrayOf⟩ := by
  cases h with
  | mark x => rwa [hasEdge_setResolved]
  | make name kind flags => simpa [hasEdge] using he
  | drop e hk =>
      refine (Resolves.change (.refl ⟨{}, {}⟩ g) (.drop e hk)).hasEdge_of_bound hg ?_ he
      simp [EdgeKind.isResolution]
  | draw e hs ht => exact (hasEdge_addEdge hs ht).mpr (.inl he)
  | array element ht => exact (hasEdge_withArray g ht).mpr (.inl he)

/-- What was there does not become an array type of anything else. -/
theorem hasEdge_arrayOf_iff (h : g.Move g') (hg : g.WellFormed) (ha : a < g.size) :
    g'.hasEdge ⟨a, x, .arrayOf⟩ ↔ g.hasEdge ⟨a, x, .arrayOf⟩ := by
  refine ⟨fun he => ?_, h.hasEdge_arrayOf hg⟩
  cases h with
  | mark x => rwa [hasEdge_setResolved] at he
  | make name kind flags => simpa [hasEdge] using he
  | drop e hk => exact (hg.hasEdge_removeEdge.mp he).1
  | draw e hs ht hk => exact (hasEdge_addEdge_of_ne hs ht hk.symm (by simp)).mp he
  | array element ht =>
      refine ((hasEdge_withArray g ht).mp he).resolve_right fun heq => ?_
      exact Nat.ne_of_lt ha (congrArg Edge.source heq)

theorem isArrayType_iff (h : g.Move g') (hg : g.WellFormed) (ha : a < g.size) :
    g'.IsArrayType a ↔ g.IsArrayType a :=
  exists_congr fun _ => h.hasEdge_arrayOf_iff hg ha

end Move

namespace Moves

theorem elemental (h : g.Moves g') (hg : g.Elemental) : g'.Elemental := by
  induction h with
  | refl => exact hg
  | tail _ hm ih => exact hm.elemental ih

theorem size_le (h : g.Moves g') : g.size ≤ g'.size := by
  induction h with
  | refl => exact Nat.le_refl _
  | tail _ hm ih => exact Nat.le_trans ih hm.size_le

theorem hasEdge_arrayOf_iff (h : g.Moves g') (hg : g.Elemental) (ha : a < g.size) :
    g'.hasEdge ⟨a, x, .arrayOf⟩ ↔ g.hasEdge ⟨a, x, .arrayOf⟩ := by
  induction h with
  | refl => exact Iff.rfl
  | tail hms hm ih =>
      have hlt := Nat.lt_of_lt_of_le ha (size_le hms)
      exact (hm.hasEdge_arrayOf_iff (elemental hms hg).toWellFormed hlt).trans ih

theorem hasEdge_arrayOf (h : g.Moves g') (hg : g.Elemental) (he : g.hasEdge ⟨a, x, .arrayOf⟩) :
    g'.hasEdge ⟨a, x, .arrayOf⟩ := (h.hasEdge_arrayOf_iff hg (hg.lt_size he).1).mpr he

end Moves

/-- By writes the second graph leads to the third one, and in that one some symbols are known to be
there and to be no array types. -/
structure Onward (g₀ : SymbolGraph) (known : List SymbolId) (g : SymbolGraph) : Prop where
  moves : g₀.Moves g
  elemental : g.Elemental
  lt_size : ∀ x ∈ known, x < g.size
  ne_array : ∀ x ∈ known, ¬g.IsArrayType x

namespace Onward

variable {g₀ : SymbolGraph} {known : List SymbolId}

/-- Where resolving begins, nothing is known. -/
theorem start (h : g.Elemental) : g.Onward [] g where
  moves := .refl
  elemental := h
  lt_size _ hx := absurd hx List.not_mem_nil
  ne_array _ hx := absurd hx List.not_mem_nil

theorem move (h : g₀.Onward known g) (hm : g.Move g') : g₀.Onward known g' where
  moves := .tail h.moves hm
  elemental := hm.elemental h.elemental
  lt_size x hx := Nat.lt_of_lt_of_le (h.lt_size x hx) hm.size_le
  ne_array x hx ha := h.ne_array x hx
    ((hm.isArrayType_iff h.elemental.toWellFormed (h.lt_size x hx)).mp ha)

/-- One more symbol is known. -/
theorem learn (h : g₀.Onward known g) (hx : x < g.size) (ha : ¬g.IsArrayType x) :
    g₀.Onward (x :: known) g where
  moves := h.moves
  elemental := h.elemental
  lt_size := List.forall_mem_cons.mpr ⟨hx, h.lt_size⟩
  ne_array := List.forall_mem_cons.mpr ⟨ha, h.ne_array⟩

theorem forget (h : g₀.Onward (x :: known) g) : g₀.Onward known g where
  moves := h.moves
  elemental := h.elemental
  lt_size := (List.forall_mem_cons.mp h.lt_size).2
  ne_array := (List.forall_mem_cons.mp h.ne_array).2

theorem make (h : g₀.Onward known g) (name : String) (kind : SymbolKind)
    (flags : Flags SymbolFlag) : g₀.Onward (g.size :: known) (g.alloc name kind flags) := by
  refine (h.move (.make name kind flags)).learn (by rw [size_alloc]; exact Nat.lt_succ_self _) ?_
  rintro ⟨x, he⟩
  have hold : g.hasEdge ⟨g.size, x, .arrayOf⟩ := by simpa [hasEdge] using he
  exact Nat.lt_irrefl _ (h.elemental.lt_size hold).1

end Onward

end SymbolGraph

/-- The state comes from an earlier graph by writes that spare array types. -/
abbrev Resolution.Onward (g₀ : SymbolGraph) (known : List SymbolId) (r : Resolution) : Prop :=
  g₀.Onward known r.graph

theorem SymbolGraph.Onward.of_eq {g₀ g : SymbolGraph} {known : List SymbolId} {r : Resolution}
    (h : g₀.Onward known g) (hr : r.graph = g) : Resolution.Onward g₀ known r := by
  rw [Resolution.Onward, hr]
  exact h

namespace ResolveM

variable {g₀ : SymbolGraph} {setting : Setting} {known : List SymbolId} {α β : Type}

/-! ### Steps -/

/-- What was learnt on the way is of no use later. -/
theorem forget {m : ResolveM α} {Q : α → Prop} {x : SymbolId}
    (h : Keeps (Resolution.Onward g₀ (x :: known)) m Q) :
    Contract (Resolution.Onward g₀ (x :: known)) m
      (fun a r => Resolution.Onward g₀ known r ∧ Q a) (Resolution.Onward g₀ known) :=
  Contract.weaken h (fun _ hr => hr) (fun _ _ hr => ⟨hr.1.forget, hr.2⟩) fun _ hr => hr.forget

theorem onward_graph : Keeps (Resolution.Onward g₀ known) graph := fun _ hr => ⟨hr, True.intro⟩

/-- What is read of the graph can be learnt from. -/
theorem onward_graph_bind {f : SymbolGraph → ResolveM α} {post : α → Resolution → Prop}
    {fail : Resolution → Prop} (h : ∀ g, g₀.Onward known g →
      Contract (fun r => r.graph = g) (f g) post fail) :
    Contract (Resolution.Onward g₀ known) (graph >>= f) post fail := fun r hr => h r.graph hr r rfl

theorem onward_markResolved (x : SymbolId) :
    Keeps (Resolution.Onward g₀ known) (markResolved x) :=
  Keeps.modify fun _ hr => hr.move (.mark x)

theorem onward_report (d : Diagnostic) : Keeps (Resolution.Onward g₀ known) (report d) := by
  refine Keeps.modify fun r hr => ?_
  split
  · exact hr
  · exact hr

theorem onward_removeOutgoing (x : SymbolId) {kind : EdgeKind} (hk : kind.isResolution) :
    Keeps (Resolution.Onward g₀ known) (removeOutgoing x kind) :=
  Keeps.modify fun _ hr => removeTargets_induction (P := g₀.Onward known)
    (fun _ y hg => hg.move (.drop ⟨x, y, kind⟩ hk)) _ hr

/-- A symbol that is made is known. -/
theorem onward_alloc_bind (name : String) (kind : SymbolKind) (flags : Flags SymbolFlag)
    {f : SymbolId → ResolveM α} {post : α → Resolution → Prop}
    (h : ∀ x, Contract (Resolution.Onward g₀ (x :: known)) (f x) post
      (Resolution.Onward g₀ known)) :
    Contract (Resolution.Onward g₀ known) (alloc name kind flags >>= f) post
      (Resolution.Onward g₀ known) := by
  refine Contract.bind (Q := fun x r => Resolution.Onward g₀ (x :: known) r) ?_ h
  refine (contract_onGraph (GraphM.contract_alloc (P := g₀.Onward known) name kind flags)).weaken
    (fun _ hr => hr) ?_ fun _ hr => hr
  rintro x r ⟨g, hg, rfl, hr⟩
  exact (hg.make name kind flags).of_eq hr

theorem onward_link {source target : SymbolId} {kind : EdgeKind} (hs : source ∈ known)
    (hk : kind ≠ .arrayOf) (hside : kind ≠ .instanceType)
    (ht : kind.isMembership → target ∈ known) :
    Keeps (Resolution.Onward g₀ known) (link source target kind) := by
  refine (contract_link (g₀.Onward known) source target kind).weaken (fun _ hr => hr) ?_
    fun _ hr => hr
  rintro - r ⟨g, hg, hslt, htlt, hr⟩
  refine ⟨(hg.move (.draw _ hslt htlt hk hside ?_ fun hm => ?_)).of_eq hr, True.intro⟩
  · exact fun ha => absurd ha (hg.ne_array _ hs)
  · exact hg.ne_array _ (ht hm)

/-- What a symbol is resolved to. An array type is resolved only to what is there from the start. -/
theorem onward_setSingle {source target : SymbolId} {kind : EdgeKind} (hk : kind.isResolution)
    (hs : source ∈ known ∨ target < WellKnown.count) :
    Keeps (Resolution.Onward g₀ known) (setSingle source target kind) := by
  have hne : kind ≠ .arrayOf ∧ kind ≠ .instanceType ∧ ¬kind.isMembership := by
    revert hk
    cases kind <;> simp [EdgeKind.isResolution, EdgeKind.isMembership]
  refine (contract_onGraph (GraphM.keeps_setSingle (P := g₀.Onward known) ?_ ?_)).weaken
    (fun _ hr => hr) (fun _ _ hr => hr) fun _ hr => hr
  · exact fun g x hg => hg.move (.drop ⟨source, x, kind⟩ hk)
  · exact fun g hg hslt htlt => hg.move (.draw _ hslt htlt hne.1 hne.2.1
      (fun ha => hs.resolve_left fun hs => hg.ne_array _ hs ha) fun hm => absurd hm hne.2.2)

theorem onward_begin (x : SymbolId) : Keeps (Resolution.Onward g₀ known) (begin x) := by
  unfold begin
  refine onward_graph.bind fun g _ => ?_
  cases g.get? x with
  | none => exact Keeps.throw _
  | some s =>
      dsimp only
      split
      · exact Keeps.pure True.intro
      · exact (onward_markResolved x).bind fun _ _ => Keeps.pure True.intro

/-- Work that is done once for a symbol. -/
theorem onward_begin_else {work rest : ResolveM α} (x : SymbolId)
    (hwork : Keeps (Resolution.Onward g₀ known) work)
    (hrest : Keeps (Resolution.Onward g₀ known) rest) :
    Keeps (Resolution.Onward g₀ known) (do if ← begin x then work else rest) := by
  refine (onward_begin x).bind fun b _ => ?_
  split
  · exact hwork
  · exact hrest

theorem onward_begin_then {work : ResolveM Unit} (x : SymbolId)
    (hwork : Keeps (Resolution.Onward g₀ known) work) :
    Keeps (Resolution.Onward g₀ known) (do if ← begin x then work) :=
  onward_begin_else x hwork (Keeps.pure True.intro)

/-- A symbol that has declarations is known. -/
theorem onward_declarations_bind {x : SymbolId} {f : List DeclId → ResolveM α}
    (hnil : Keeps (Resolution.Onward g₀ known) (f []))
    (hsome : ∀ ds, Keeps (Resolution.Onward g₀ (x :: known)) (f ds)) :
    Keeps (Resolution.Onward g₀ known) (declarations x >>= f) := by
  unfold declarations
  rw [bind_assoc]
  refine onward_graph_bind fun g hg => ?_
  cases hs : g.get? x with
  | none => exact Contract.throw _ fun r hr => hg.of_eq hr
  | some s =>
      rw [pure_bind]
      by_cases hds : s.declarations = []
      · rw [hds]
        exact Contract.weaken hnil (fun r hr => hg.of_eq hr) (fun _ _ hr => hr) fun _ hr => hr
      · have hdecl : g.declarations x ≠ [] := by
          rw [SymbolGraph.declarations, hs]
          exact hds
        obtain ⟨d, hd⟩ := List.exists_mem_of_ne_nil _ hdecl
        have hlearnt := hg.learn (lt_size_of_mem_declarations hd)
          (hg.elemental.ne_array_of_declared hdecl)
        exact (forget (hsome _)).weaken (fun r hr => hlearnt.of_eq hr) (fun _ _ hr => hr)
          fun _ hr => hr

theorem onward_declarations (x : SymbolId) :
    Keeps (Resolution.Onward g₀ known) (declarations x) := by
  rw [← bind_pure (declarations x)]
  exact onward_declarations_bind (Keeps.pure True.intro) fun _ => Keeps.pure True.intro

theorem onward_site (d : DeclId) : Keeps (Resolution.Onward g₀ known) (site setting d) := by
  unfold site
  cases setting.program.unitById? d.unit with
  | none => exact Keeps.throw _
  | some u =>
      dsimp only
      cases u.decl? d with
      | none => exact Keeps.throw _
      | some decl => exact Keeps.pure True.intro

/-- A symbol that has a place is known. -/
theorem onward_firstSite_bind {x : SymbolId} {f : Option DeclSite → ResolveM α}
    (hnone : ∀ known, Keeps (Resolution.Onward g₀ known) (f none))
    (hsome : ∀ site, Keeps (Resolution.Onward g₀ (x :: known)) (f (some site))) :
    Keeps (Resolution.Onward g₀ known) (firstSite setting x >>= f) := by
  unfold firstSite
  rw [bind_assoc]
  refine onward_declarations_bind (by simpa using hnone known) fun ds => ?_
  cases ds.head? with
  | none => simpa using hnone (x :: known)
  | some d =>
      dsimp only
      rw [bind_assoc]
      refine (onward_site d).bind fun site _ => ?_
      rw [pure_bind]
      exact hsome site

theorem onward_firstSite (x : SymbolId) :
    Keeps (Resolution.Onward g₀ known) (firstSite setting x) := by
  unfold firstSite
  refine (onward_declarations x).bind fun ds _ => ?_
  cases ds.head? with
  | none => exact Keeps.pure True.intro
  | some d => exact (onward_site d).bind fun _ _ => Keeps.pure True.intro

theorem onward_missing (d : Diagnostic) : Keeps (Resolution.Onward g₀ known)
    (do report d; return WellKnown.error : ResolveM SymbolId) :=
  (onward_report d).bind fun _ _ => Keeps.pure True.intro

/-! ### Names -/

section Search

variable {aliasTarget : SymbolId → ResolveM SymbolId}
  (h : ∀ x, Keeps (Resolution.Onward g₀ known) (aliasTarget x))

include h

theorem onward_walkMembers (meaning : Meaning) (current : SymbolId) (segments : List String) :
    Keeps (Resolution.Onward g₀ known) (walkMembers aliasTarget meaning current segments) := by
  induction segments generalizing current with
  | nil => exact Keeps.pure True.intro
  | cons segment rest ih =>
      have hgo : ∀ holder, Keeps (Resolution.Onward g₀ known)
          (walkOn aliasTarget meaning segment rest holder) := by
        refine fun holder => onward_graph.bind fun g _ => ?_
        cases (g.publicMembers holder).find? (g.admits segment (meaning.atSegment rest)) with
        | none => exact Keeps.pure True.intro
        | some next => exact ih next
      rw [walkMembers_cons]
      refine onward_graph.bind fun g _ => ?_
      split
      · exact (h current).bind fun holder _ => hgo holder
      · exact hgo current

theorem onward_lookupAmong (candidates : List SymbolId) (segments : List String)
    (meaning : Meaning) :
    Keeps (Resolution.Onward g₀ known) (lookupAmong aliasTarget candidates segments meaning) := by
  unfold lookupAmong
  cases segments with
  | nil => exact Keeps.pure True.intro
  | cons first rest =>
      exact onward_graph.bind fun g _ => Keeps.findSomeM? True.intro _ fun x _ =>
        onward_walkMembers h meaning x rest

theorem onward_lookupPath (segments : List String) (context : List SymbolId)
    (enclosing : Option DeclId) (meaning : Meaning) : Keeps (Resolution.Onward g₀ known)
      (lookupPath aliasTarget setting segments context enclosing meaning) := by
  unfold lookupPath
  split
  · exact Keeps.pure True.intro
  · refine Keeps.bind (Keeps.findSomeM? True.intro _ fun anchor _ => onward_graph.bind fun g _ =>
      onward_lookupAmong h _ segments meaning) fun found _ => ?_
    cases found with
    | none => exact onward_lookupAmong h _ segments meaning
    | some found => exact Keeps.pure True.intro

end Search

theorem onward_settledTarget (x : SymbolId) :
    Keeps (Resolution.Onward g₀ known) (settledTarget x) :=
  onward_graph.bind fun _ _ => Keeps.pure True.intro

theorem onward_settle {resolve : SymbolId → ResolveM SymbolId}
    (h : ∀ x, Keeps (Resolution.Onward g₀ known) (resolve x)) (x : SymbolId) :
    Keeps (Resolution.Onward g₀ known) (settle resolve x) := by
  refine onward_graph.bind fun g _ => ?_
  split
  · exact onward_settledTarget x
  · exact h x

theorem onward_requiredModule (site : DeclSite) (reference : NodeRef) :
    Keeps (Resolution.Onward g₀ known) (requiredModule setting site reference) := by
  refine onward_graph.bind fun g _ => ?_
  split
  · exact Keeps.pure True.intro
  · exact onward_missing _

theorem onward_namedTarget {resolve : SymbolId → ResolveM SymbolId}
    (h : ∀ x, Keeps (Resolution.Onward g₀ known) (resolve x)) (x : SymbolId) (site : DeclSite)
    (reference : NodeRef) :
    Keeps (Resolution.Onward g₀ known) (namedTarget setting resolve x site reference) := by
  unfold namedTarget
  refine (onward_lookupPath (onward_settle h) _ _ _ _).bind fun found _ => ?_
  cases found with
  | none => exact onward_missing _
  | some found =>
      dsimp only
      split
      · exact onward_missing _
      · refine onward_graph.bind fun g _ => ?_
        split
        · exact h found
        · exact Keeps.pure True.intro

/-- What is no declared alias is resolved to the error symbol. -/
theorem onward_declaredTarget_setSingle {resolve : SymbolId → ResolveM SymbolId}
    (h : ∀ known x, Keeps (Resolution.Onward g₀ known) (resolve x)) (x : SymbolId) :
    Keeps (Resolution.Onward g₀ known) (do
      let target ← declaredTarget setting resolve x
      setSingle x target .typedAs
      return target) := by
  unfold declaredTarget
  rw [bind_assoc]
  refine onward_firstSite_bind (fun known => ?_) fun site => ?_
  · rw [pure_bind]
    exact (onward_setSingle rfl (.inr (by decide))).bind fun _ _ => Keeps.pure True.intro
  · have hset : ∀ target, Keeps (Resolution.Onward g₀ (x :: known)) (do
        setSingle x target .typedAs
        return target : ResolveM SymbolId) := fun target =>
      (onward_setSingle rfl (.inl List.mem_cons_self)).bind fun _ _ => Keeps.pure True.intro
    refine Keeps.bind (Q := fun _ => True) ?_ fun target _ => hset target
    dsimp only
    split
    · split
      · exact onward_requiredModule site _
      · exact onward_namedTarget (h _) x site _
    · exact Keeps.pure True.intro

/-- By induction on the aliases that may still be followed. -/
theorem onward_resolveAliasWithin (hops : Nat) (x : SymbolId) :
    Keeps (Resolution.Onward g₀ known) (resolveAliasWithin setting hops x) := by
  induction hops generalizing known x with
  | zero =>
      rw [resolveAliasWithin]
      refine onward_begin_else x ?_ (onward_settledTarget x)
      exact (onward_setSingle rfl (.inr (by decide))).bind fun _ _ => Keeps.pure True.intro
  | succ hops ih =>
      rw [resolveAliasWithin]
      exact onward_begin_else x (onward_declaredTarget_setSingle (fun _ => ih) x)
        (onward_settledTarget x)

theorem onward_aliasTarget (x : SymbolId) :
    Keeps (Resolution.Onward g₀ known) (aliasTarget setting x) :=
  onward_settle (onward_resolveAliasWithin _) x

theorem onward_findPath (segments : List String) (context : List SymbolId)
    (enclosing : Option DeclId) (meaning : Meaning) :
    Keeps (Resolution.Onward g₀ known) (findPath setting segments context enclosing meaning) :=
  onward_lookupPath onward_aliasTarget segments context enclosing meaning

theorem onward_typeDenoted (denoted : SymbolId) :
    Keeps (Resolution.Onward g₀ known) (typeDenoted denoted) := by
  unfold typeDenoted
  refine onward_graph.bind fun g _ => ?_
  split
  · exact Keeps.pure True.intro
  · split
    · exact Keeps.pure True.intro
    · exact Keeps.throw _
  · exact Keeps.pure True.intro
  · exact Keeps.throw _

theorem onward_asType (symbol : SymbolId) :
    Keeps (Resolution.Onward g₀ known) (asType setting symbol) := by
  rw [asType_eq]
  refine onward_graph.bind fun g _ => ?_
  split
  · exact (onward_aliasTarget symbol).bind fun denoted _ => onward_typeDenoted denoted
  · exact onward_typeDenoted symbol

/-! ### Types -/

/-- The first array type of an element type is made, or the one that is there is the answer. -/
theorem onward_arrayOf (element : SymbolId) :
    Keeps (Resolution.Onward g₀ known) (arrayOf element) := by
  unfold arrayOf
  refine onward_graph_bind fun g hg => ?_
  split
  · next hnone =>
    refine Contract.bind (Q := fun array r => array = g.size ∧
      r.graph = g.alloc (g.name element ++ "[]") .array (Flags.single .synthesized)) ?_ ?_
    · refine (contract_onGraph (GraphM.contract_alloc (P := (· = g)) _ _ _)).weaken
        (fun _ hr => hr) ?_ fun r hr => hg.of_eq hr
      rintro array r ⟨_, rfl, hid, hr⟩
      exact ⟨hid, hr⟩
    · refine fun array => Contract.assuming fun harray => ?_
      have hmade := hg.move (.make (g.name element ++ "[]") .array (Flags.single .synthesized))
      refine Contract.bind (Q := fun _ => Resolution.Onward g₀ known) ?_ fun _ =>
        (onward_markResolved array).bind fun _ _ => Keeps.pure True.intro
      refine (contract_link (· = _) array element .arrayOf).weaken (fun _ hr => hr) ?_
        fun r hr => hmade.of_eq hr
      rintro - r ⟨_, rfl, -, ht, hr⟩
      rw [size_alloc] at ht
      subst harray
      exact (hg.move (.array element (Nat.le_of_lt_succ ht) hnone)).of_eq hr
  · exact Contract.pure _ fun r hr => ⟨hg.of_eq hr, True.intro⟩
  · exact Contract.throw _ fun r hr => hg.of_eq hr

variable {place : TypePlace}

theorem onward_namedType (name reported : NodeRef) :
    Keeps (Resolution.Onward g₀ known) (namedType setting place name reported) := by
  unfold namedType
  refine (onward_findPath _ _ _ _).bind fun found _ => ?_
  cases found with
  | none => exact onward_missing _
  | some found =>
      refine (onward_asType found).bind fun type _ => onward_graph.bind fun g _ => ?_
      split
      · exact Keeps.pure True.intro
      · exact onward_missing _

section Nested

variable {resolve : NodeRef → ResolveM SymbolId}
  (h : ∀ known r, Keeps (Resolution.Onward g₀ known) (resolve r))

include h

/-- A part of a holder is made with its type. -/
theorem onward_typedPart {holder : SymbolId} (hh : holder ∈ known) (name : String)
    (symbolKind : SymbolKind) (flags : Flags SymbolFlag) {kind : EdgeKind} (hk : kind.isPart)
    (r : NodeRef) : Keeps (Resolution.Onward g₀ known) (do
      let part ← alloc name symbolKind flags
      link holder part kind
      let type ← resolve r
      setSingle part type .typedAs
      markResolved part) := by
  refine onward_alloc_bind _ _ _ fun part => forget ?_
  have hpart : part ∈ part :: known := List.mem_cons_self
  refine (onward_link (List.mem_cons_of_mem _ hh) ?_ ?_ fun _ => hpart).bind fun _ _ => ?_
  · rintro rfl
    simp [EdgeKind.isPart] at hk
  · rintro rfl
    simp [EdgeKind.isPart] at hk
  · exact (h _ r).bind fun type _ => (onward_setSingle rfl (.inl hpart)).bind fun _ _ =>
      onward_markResolved part

theorem onward_makeParameter {signature : SymbolId} (hs : signature ∈ known) (r : NodeRef) :
    Keeps (Resolution.Onward g₀ known) (makeParameter place resolve signature r) := by
  unfold makeParameter
  split
  · exact onward_typedPart h hs _ _ _ rfl _
  · exact Keeps.pure True.intro

/-- The signature that is made is known. -/
theorem onward_makeSignature (r : NodeRef) :
    Contract (Resolution.Onward g₀ known) (makeSignature place resolve r)
      (fun signature r => Resolution.Onward g₀ (signature :: known) r)
      (Resolution.Onward g₀ known) := by
  unfold makeSignature
  refine onward_alloc_bind _ _ _ fun signature => ?_
  have hs : signature ∈ signature :: known := List.mem_cons_self
  refine Contract.weaken (Keeps.bind (Keeps.forM _ fun p _ => onward_makeParameter h hs p)
    fun _ _ => (h _ _).bind fun type _ => (onward_setSingle rfl (.inl hs)).bind fun _ _ =>
      (onward_markResolved signature).bind fun _ _ => Keeps.pure (Eq.refl signature))
    (fun _ hr => hr) ?_ fun _ hr => hr.forget
  rintro _ r ⟨hr, rfl⟩
  exact hr

theorem onward_makeSignature_link (r : NodeRef) {owner : SymbolId} (ho : owner ∈ known)
    {kind : EdgeKind} (hk : kind.isSignature) : Keeps (Resolution.Onward g₀ known) (do
      let signature ← makeSignature place resolve r
      link owner signature kind) := by
  refine Contract.bind (onward_makeSignature h r) fun signature => forget ?_
  refine onward_link (List.mem_cons_of_mem _ ho) ?_ ?_ fun _ => List.mem_cons_self
  · rintro rfl
    simp [EdgeKind.isSignature] at hk
  · rintro rfl
    simp [EdgeKind.isSignature] at hk

theorem onward_makeCallable (r : NodeRef) (kind : SymbolKind) {signatureKind : EdgeKind}
    (hk : signatureKind.isSignature) : Keeps (Resolution.Onward g₀ known)
      (makeCallable place resolve r kind signatureKind) := by
  unfold makeCallable
  refine onward_alloc_bind _ _ _ fun callable => forget ?_
  rw [← bind_assoc]
  exact (onward_makeSignature_link h r List.mem_cons_self hk).bind fun _ _ =>
    (onward_markResolved callable).bind fun _ _ => Keeps.pure True.intro

omit h in
/-- The method of a literal that is found or made is known. -/
theorem onward_literalMethod {literal : SymbolId} (hl : literal ∈ known) (name : String) :
    Contract (Resolution.Onward g₀ known) (literalMethod literal name)
      (fun method r => Resolution.Onward g₀ (method :: known) r) (Resolution.Onward g₀ known) := by
  unfold literalMethod
  refine onward_graph_bind fun g hg => ?_
  split
  · next method hfind =>
    have hfound := List.find?_some hfind
    simp only [Bool.and_eq_true, beq_iff_eq] at hfound
    have hk : g.kind? method = some .method := hfound.2
    have hlearnt := hg.learn (lt_size_of_kind? hk)
      (hg.elemental.ne_array_of_kind hk (by decide))
    exact Contract.pure _ fun r hr => hlearnt.of_eq hr
  · refine Contract.weaken ?_ (fun r hr => hg.of_eq hr) (fun _ _ hr => hr) fun _ hr => hr
    refine onward_alloc_bind _ _ _ fun method => ?_
    have hm : method ∈ method :: known := List.mem_cons_self
    refine Contract.weaken (Keeps.bind (onward_link (List.mem_cons_of_mem _ hl) (by decide)
      (by decide) fun _ => hm) fun _ _ => (onward_markResolved method).bind fun _ _ =>
        Keeps.pure (Eq.refl method)) (fun _ hr => hr) ?_ fun _ hr => hr.forget
    rintro _ r ⟨hr, rfl⟩
    exact hr

theorem onward_makeMember {literal : SymbolId} (hl : literal ∈ known) (r : NodeRef) :
    Keeps (Resolution.Onward g₀ known) (makeMember place resolve literal r) := by
  unfold makeMember
  cases place.tree.node? r with
  | none => exact Keeps.pure True.intro
  | some node =>
      dsimp only
      split
      · split
        · exact onward_typedPart h hl _ _ _ rfl _
        · exact Keeps.pure True.intro
      · exact Contract.bind (onward_literalMethod hl _) fun method =>
          forget (onward_makeSignature_link h r List.mem_cons_self rfl)
      · exact onward_makeSignature_link h r hl rfl
      · exact onward_makeSignature_link h r hl rfl
      · exact onward_makeSignature_link h r hl rfl
      · exact Keeps.pure True.intro

theorem onward_makeLiteral (r : NodeRef) :
    Keeps (Resolution.Onward g₀ known) (makeLiteral place resolve r) := by
  unfold makeLiteral
  refine onward_alloc_bind _ _ _ fun literal => forget ?_
  exact (onward_markResolved literal).bind fun _ _ =>
    (Keeps.forM _ fun member _ => onward_makeMember h List.mem_cons_self member).bind fun _ _ =>
      Keeps.pure True.intro

theorem onward_typeOfNode (r : NodeRef) :
    Keeps (Resolution.Onward g₀ known) (typeOfNode place resolve setting r) := by
  unfold typeOfNode
  split
  · exact onward_namedType _ r
  · exact onward_namedType r r
  · exact onward_namedType r r
  · exact (h _ _).bind fun element _ => onward_arrayOf element
  · exact onward_makeCallable h r _ rfl
  · exact onward_makeCallable h r _ rfl
  · exact onward_makeLiteral h r
  · exact Keeps.pure True.intro
  · exact Keeps.pure True.intro

end Nested

/-- By induction on the levels of the node. -/
theorem onward_typeWithin (levels : Nat) (r : NodeRef) :
    Keeps (Resolution.Onward g₀ known) (typeWithin setting place levels r) := by
  induction levels generalizing known r with
  | zero => exact Keeps.throw _
  | succ levels ih =>
      rw [typeWithin]
      exact onward_typeOfNode (fun _ => ih) r

theorem onward_typeAt (r : NodeRef) : Keeps (Resolution.Onward g₀ known) (typeAt setting place r) :=
  onward_typeWithin _ r

theorem onward_typeReference (unit : UnitId) (r : NodeRef) (context : List SymbolId)
    (enclosing : Option DeclId) :
    Keeps (Resolution.Onward g₀ known) (typeReference setting unit r context enclosing) := by
  unfold typeReference
  cases setting.program.unitById? unit with
  | none => exact Keeps.throw _
  | some u => exact onward_typeAt r

/-! ### Bases -/

theorem onward_checkCollisions (container : SymbolId) :
    Keeps (Resolution.Onward g₀ known) (checkCollisions setting container) := by
  unfold checkCollisions
  split
  · refine onward_graph.bind fun g _ => Keeps.forM _ fun pair _ => ?_
    unfold reportCollision
    refine onward_graph.bind fun g _ => (onward_firstSite _).bind fun site? _ => ?_
    cases site? with
    | none => exact Keeps.pure True.intro
    | some site =>
        refine (onward_firstSite _).bind fun first? _ => ?_
        cases first? with
        | none => exact onward_report _
        | some first => exact onward_report _
  · exact Keeps.pure True.intro

theorem onward_baseFound (site : DeclSite) (notObject : Nat) (entry : NodeRef)
    (found : Option SymbolId) :
    Keeps (Resolution.Onward g₀ known) (baseFound setting site notObject entry found) := by
  cases found with
  | none => exact (onward_report _).bind fun _ _ => Keeps.pure True.intro
  | some found =>
      refine (onward_asType found).bind fun type _ => onward_graph.bind fun g _ => ?_
      dsimp only
      split
      · exact Keeps.pure True.intro
      · exact (onward_report _).bind fun _ _ => Keeps.pure True.intro

theorem onward_heritageTarget (site : DeclSite) (notObject : Nat) (entry : NodeRef) :
    Keeps (Resolution.Onward g₀ known) (heritageTarget setting site notObject entry) := by
  rw [heritageTarget_eq]
  refine (onward_findPath _ _ _ _).bind fun found _ => ?_
  cases found with
  | none =>
      exact (onward_findPath _ _ _ _).bind fun found _ => onward_baseFound site notObject entry found
  | some found => exact onward_baseFound site notObject entry (some found)

section Pull

variable {pull : SymbolId → ResolveM Unit}
  (h : ∀ known x, Keeps (Resolution.Onward g₀ known) (pull x))

include h

theorem onward_extendWith (site : DeclSite) (notObject : Nat) {type : SymbolId}
    (htype : type ∈ known) (entry : NodeRef) :
    Keeps (Resolution.Onward g₀ known) (extendWith pull setting site notObject type entry) := by
  unfold extendWith
  refine (onward_heritageTarget site notObject entry).bind fun base? _ => ?_
  cases base? with
  | none => exact Keeps.pure True.intro
  | some base =>
      refine (h _ base).bind fun _ _ => onward_graph.bind fun g _ => ?_
      split
      · exact onward_report _
      · exact onward_link htype (by decide) (by decide) (by simp [EdgeKind.isMembership])

omit h in
theorem onward_implementWith (site : DeclSite) {type : SymbolId} (htype : type ∈ known)
    (entry : NodeRef) :
    Keeps (Resolution.Onward g₀ known) (implementWith setting site type entry) := by
  unfold implementWith
  refine (onward_heritageTarget site _ entry).bind fun target? _ => ?_
  cases target? with
  | none => exact Keeps.pure True.intro
  | some target =>
      exact onward_link htype (by decide) (by decide) (by simp [EdgeKind.isMembership])

theorem onward_resolveClassDecl {inst : SymbolId} (hinst : inst ∈ known) (d : DeclId) :
    Keeps (Resolution.Onward g₀ known) (resolveClassDecl pull setting inst d) := by
  unfold resolveClassDecl
  refine (onward_site d).bind fun site _ => ?_
  split
  · exact Keeps.pure True.intro
  · exact (Keeps.forM _ fun entry _ => onward_extendWith h site _ hinst entry).bind fun _ _ =>
      Keeps.forM _ fun entry _ => onward_implementWith site hinst entry

/-- Bases are linked to the instance side of a class. -/
theorem onward_resolveClassWith (cls : SymbolId) :
    Keeps (Resolution.Onward g₀ known) (resolveClassWith pull setting cls) := by
  unfold resolveClassWith
  refine onward_begin_then cls (onward_graph_bind fun g hg => ?_)
  split
  · exact Contract.throw _ fun r hr => hg.of_eq hr
  · next inst hside =>
    have he : g.hasEdge ⟨cls, inst, .instanceType⟩ :=
      hg.elemental.mem_targets_iff.mp (List.mem_of_head? hside)
    have hlearnt := hg.learn (hg.elemental.lt_size he).2 (hg.elemental.ne_array_of_side hside)
    refine Contract.weaken (forget ?_) (fun r hr => hlearnt.of_eq hr) (fun _ _ hr => hr)
      fun _ hr => hr
    exact (onward_markResolved inst).bind fun _ _ => (onward_removeOutgoing inst rfl).bind fun _ _ =>
      (onward_removeOutgoing inst rfl).bind fun _ _ => (onward_declarations cls).bind fun ds _ =>
        (Keeps.forM ds fun d _ => onward_resolveClassDecl h List.mem_cons_self d).bind fun _ _ =>
          (onward_checkCollisions inst).bind fun _ _ => onward_checkCollisions cls

theorem onward_resolveInterfaceDecl {interface : SymbolId} (hi : interface ∈ known) (d : DeclId) :
    Keeps (Resolution.Onward g₀ known) (resolveInterfaceDecl pull setting interface d) := by
  unfold resolveInterfaceDecl
  refine (onward_site d).bind fun site _ => ?_
  split
  · exact Keeps.pure True.intro
  · exact Keeps.forM _ fun entry _ => onward_extendWith h site _ hi entry

/-- What has no declarations has no bases either. -/
theorem onward_resolveInterfaceWith (interface : SymbolId) :
    Keeps (Resolution.Onward g₀ known) (resolveInterfaceWith pull setting interface) := by
  unfold resolveInterfaceWith
  refine onward_begin_then interface ((onward_removeOutgoing interface rfl).bind fun _ _ => ?_)
  refine onward_declarations_bind ?_ fun ds => ?_
  · exact (Keeps.forM _ fun d hd => absurd hd List.not_mem_nil).bind fun _ _ =>
      onward_checkCollisions interface
  · exact (Keeps.forM _ fun d _ => onward_resolveInterfaceDecl h List.mem_cons_self d).bind
      fun _ _ => onward_checkCollisions interface

end Pull

/-- By induction on the types that may still lie below. -/
theorem onward_pullWithin (types : Nat) (type : SymbolId) :
    Keeps (Resolution.Onward g₀ known) (pullWithin setting types type) := by
  induction types generalizing known type with
  | zero => exact Keeps.throw _
  | succ types ih =>
      rw [pullWithin]
      refine onward_graph.bind fun g _ => ?_
      split
      · split
        · exact onward_resolveClassWith (fun _ => ih) _
        · exact Keeps.pure True.intro
      · exact onward_resolveInterfaceWith (fun _ => ih) type
      · exact Keeps.pure True.intro

theorem onward_pull (type : SymbolId) : Keeps (Resolution.Onward g₀ known) (pull setting type) :=
  onward_graph.bind fun _ _ => onward_pullWithin _ type

theorem onward_resolveClass (cls : SymbolId) :
    Keeps (Resolution.Onward g₀ known) (resolveClass setting cls) :=
  onward_resolveClassWith (fun _ => onward_pull) cls

theorem onward_resolveInterface (interface : SymbolId) :
    Keeps (Resolution.Onward g₀ known) (resolveInterface setting interface) :=
  onward_resolveInterfaceWith (fun _ => onward_pull) interface

/-! ### Symbols -/

theorem onward_resolveModule (x : SymbolId) :
    Keeps (Resolution.Onward g₀ known) (resolveModule setting x) :=
  onward_begin_then x (onward_checkCollisions x)

theorem onward_chooseTypeNode (chosen : Option (DeclSite × NodeRef)) (ds : List DeclId) :
    Keeps (Resolution.Onward g₀ known) (chooseTypeNode setting chosen ds) := by
  induction ds generalizing chosen with
  | nil => exact Keeps.pure True.intro
  | cons d ds ih =>
      rw [chooseTypeNode]
      refine (onward_site d).bind fun site _ => ?_
      split
      · exact ih chosen
      · exact Keeps.pure True.intro
      · exact ih _

/-- What has no declarations is typed as anything. -/
theorem onward_resolveValue (x : SymbolId) :
    Keeps (Resolution.Onward g₀ known) (resolveValue setting x) := by
  unfold resolveValue
  refine onward_begin_then x (onward_declarations_bind ?_ fun ds => ?_)
  · exact onward_setSingle rfl (.inr (by decide))
  · refine (onward_chooseTypeNode none ds).bind fun chosen _ => ?_
    split
    · exact (onward_typeAt _).bind fun type _ => onward_setSingle rfl (.inl List.mem_cons_self)
    · exact onward_setSingle rfl (.inl List.mem_cons_self)

theorem onward_declaredReturn (x : SymbolId) (site : DeclSite) :
    Keeps (Resolution.Onward g₀ known) (declaredReturn setting x site) := by
  unfold declaredReturn
  refine onward_graph.bind fun g _ => ?_
  split
  · exact Keeps.pure True.intro
  · exact onward_typeAt _

theorem onward_resolveSignature (x : SymbolId) :
    Keeps (Resolution.Onward g₀ known) (resolveSignature setting x) := by
  unfold resolveSignature
  refine onward_begin_then x (onward_graph.bind fun g _ =>
    (Keeps.forM _ fun p _ => onward_resolveValue p).bind fun _ _ => ?_)
  refine onward_firstSite_bind (fun _ => Keeps.pure True.intro) fun site => ?_
  exact (onward_declaredReturn x site).bind fun type _ =>
    onward_setSingle rfl (.inl List.mem_cons_self)

theorem onward_reportImplementations (seen : Bool) (ds : List DeclId) :
    Keeps (Resolution.Onward g₀ known) (reportImplementations setting seen ds) := by
  induction ds generalizing seen with
  | nil => exact Keeps.pure True.intro
  | cons d ds ih =>
      rw [reportImplementations]
      refine (onward_site d).bind fun site _ => ?_
      dsimp only
      split
      · exact (onward_report _).bind fun _ _ => ih _
      · exact ih _

theorem onward_resolveFunction (x : SymbolId) :
    Keeps (Resolution.Onward g₀ known) (resolveFunction setting x) := by
  unfold resolveFunction
  exact onward_begin_then x <| onward_graph.bind fun g _ =>
    (Keeps.forM _ fun signature _ => onward_resolveSignature signature).bind fun _ _ =>
      (onward_declarations x).bind fun ds _ => onward_reportImplementations false ds

theorem onward_resolveSymbol (x : SymbolId) :
    Keeps (Resolution.Onward g₀ known) (resolveSymbol setting x) := by
  unfold resolveSymbol
  refine onward_graph.bind fun g _ => ?_
  split
  · exact Keeps.throw _
  · exact onward_resolveModule x
  · exact onward_resolveModule x
  · exact onward_resolveClass x
  · split
    · exact onward_resolveClass _
    · exact Keeps.pure True.intro
  · exact onward_resolveInterface x
  · exact onward_resolveFunction x
  · exact onward_resolveFunction x
  · exact onward_resolveSignature x
  · exact onward_resolveValue x
  · exact onward_resolveValue x
  · exact onward_resolveValue x
  · exact (onward_resolveAliasWithin _ x).bind fun _ _ => Keeps.pure True.intro
  · exact onward_markResolved x
  · exact onward_markResolved x
  · exact onward_markResolved x
  · exact onward_markResolved x

end ResolveM

open ResolveM in
/-- Every demand, also one that fails, does nothing but these writes. -/
theorem Demand.onward_run (d : Demand) (setting : Setting) (g₀ : SymbolGraph) :
    Keeps (Resolution.Onward g₀ []) (d.run setting) := by
  have hitself : ∀ x {step : ResolveM Unit}, Keeps (Resolution.Onward g₀ []) step →
      Keeps (Resolution.Onward g₀ []) (thenItself x step) :=
    fun x _ hstep => hstep.bind fun _ _ => Keeps.pure True.intro
  cases d with
  | symbol x => exact hitself x (onward_resolveSymbol x)
  | module x => exact hitself x (onward_resolveModule x)
  | classType x => exact hitself x (onward_resolveClass x)
  | interface x => exact hitself x (onward_resolveInterface x)
  | function x => exact hitself x (onward_resolveFunction x)
  | signature x => exact hitself x (onward_resolveSignature x)
  | value x => exact hitself x (onward_resolveValue x)
  | «alias» x => exact (onward_resolveAliasWithin _ x).map fun _ _ => True.intro
  | aliasTarget x => exact (onward_aliasTarget x).map fun _ _ => True.intro
  | arrayOf element => exact (onward_arrayOf element).map fun _ _ => True.intro
  | path segments context enclosing meaning =>
      exact onward_findPath segments context enclosing meaning
  | typeNode unit node context enclosing =>
      exact (onward_typeReference unit node context enclosing).map fun _ _ => True.intro

end NameBinding
