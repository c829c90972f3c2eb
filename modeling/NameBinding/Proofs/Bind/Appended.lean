import NameBinding.Proofs.Bind.Rest
import NameBinding.Proofs.Bind.Sound

/-! # What binding a unit adds

Binding makes symbols, draws edges that have a new symbol at one end at least, and lists declarations
of its unit on new symbols and on symbols that were declared before. All else stays as it is. -/

namespace NameBinding

open SymbolGraph

namespace Edge

/-- Both ends are symbols before a position. -/
def isBefore (e : Edge) (n : Nat) : Bool := decide (e.source < n) && decide (e.target < n)

theorem isBefore_iff {e : Edge} {n : Nat} : e.isBefore n ↔ e.source < n ∧ e.target < n := by
  simp [isBefore]

theorem isBefore_backward (e : Edge) (n : Nat) : e.backward.isBefore n = e.isBefore n :=
  Bool.and_comm _ _

end Edge

namespace SymbolGraph

/-- The edges of some symbols before a position stay when one is added that ends elsewhere. -/
theorem filter_insertEdge (g : SymbolGraph) {e : Edge} {n : Nat} (he : ¬e.isBefore n)
    (x : SymbolId) :
    ((g.insertEdge e).outgoing x).filter (·.isBefore n) = (g.outgoing x).filter (·.isBefore n) ∧
      ((g.insertEdge e).incoming x).filter (·.isBefore n) =
        (g.incoming x).filter (·.isBefore n) := by
  rw [outgoing_insertEdge, incoming_insertEdge]
  constructor <;> split <;> simp [List.filter_append, he]

theorem filter_addEdge (g : SymbolGraph) {e : Edge} {n : Nat} (he : ¬e.isBefore n) (x : SymbolId) :
    ((g.addEdge e).outgoing x).filter (·.isBefore n) = (g.outgoing x).filter (·.isBefore n) ∧
      ((g.addEdge e).incoming x).filter (·.isBefore n) = (g.incoming x).filter (·.isBefore n) := by
  have hback : ¬e.backward.isBefore n := by rwa [Edge.isBefore_backward]
  obtain ⟨ho, hi⟩ := filter_insertEdge g he x
  obtain ⟨ho', hi'⟩ := filter_insertEdge (g.insertEdge e) hback x
  unfold addEdge
  split
  · exact ⟨ho'.trans ho, hi'.trans hi⟩
  · exact ⟨ho, hi⟩

end SymbolGraph

namespace Binding

/-- What a binding has over an earlier one while a unit is bound. -/
structure Appended (b₀ : Binding) (unit : UnitId) (b : Binding) : Prop where
  program : b.program.WellFormed
  size : b₀.graph.size ≤ b.graph.size
  /-- Old symbols get declarations of the unit, and are otherwise as before. -/
  label : ∀ {x}, x < b₀.graph.size → (b.graph.forgetUnit unit).label? x = b₀.graph.label? x
  outgoing : ∀ {x}, x < b₀.graph.size →
    (b.graph.outgoing x).filter (·.isBefore b₀.graph.size) = b₀.graph.outgoing x
  incoming : ∀ {x}, x < b₀.graph.size →
    (b.graph.incoming x).filter (·.isBefore b₀.graph.size) = b₀.graph.incoming x
  /-- No declaration revives an old symbol. -/
  undeclared : ∀ {x}, x < b₀.graph.size → b₀.graph.declarations x = [] →
    b.graph.declarations x = []
  authored : ∀ {x d}, b₀.graph.size ≤ x → d ∈ b.graph.declarations x → d.unit = unit
  units : b.program.units.filter (·.id != unit) = b₀.program.units.filter (·.id != unit)
  /-- No unit comes or goes. -/
  keys : b.program.units.map (fun u => (u.id, u.path)) =
    b₀.program.units.map fun u => (u.id, u.path)
  resolved : ∀ x, b.graph.isResolved x = b₀.graph.isResolved x

variable {b₀ b : Binding} {unit : UnitId}

namespace Appended

/-- Nothing is added yet. -/
theorem refl (hp : b₀.program.WellFormed) (hg : b₀.graph.Mirrored)
    (hunit : ∀ {x d}, d ∈ b₀.graph.declarations x → d.unit ≠ unit) : Appended b₀ unit b₀ where
  program := hp
  size := Nat.le_refl _
  label {x} _ := by
    have hdecl : b₀.graph.declarations x = ((b₀.graph.label? x).map (·.declarations)).getD [] :=
      declarations_eq _ _
    rw [label?_forgetUnit]
    cases hx : b₀.graph.label? x with
    | none => rfl
    | some s =>
        have hall : s.declarations.filter (fun d => d.unit != unit) = s.declarations := by
          refine List.filter_eq_self.mpr fun d hd => ?_
          rw [hx, Option.map_some, Option.getD_some] at hdecl
          simpa using hunit (hdecl ▸ hd)
        simp [hall]
  outgoing {x} _ := List.filter_eq_self.mpr fun e he =>
    Edge.isBefore_iff.mpr (hg.lt_size (hg.mem_outgoing_iff.mp he).2)
  incoming {x} _ := List.filter_eq_self.mpr fun e he =>
    Edge.isBefore_iff.mpr (hg.lt_size (hg.mem_incoming_iff.mp he).2)
  undeclared _ h := h
  authored hx hd := absurd (lt_size_of_mem_declarations hd) (Nat.not_lt.mpr hx)
  units := rfl
  keys := rfl
  resolved _ := rfl

/-- A change of the graph that lists no declaration. -/
theorem setGraph (h : Appended b₀ unit b) {g : SymbolGraph} (hsize : b.graph.size ≤ g.size)
    (hlabel : ∀ x, x < b.graph.size → g.label? x = b.graph.label? x)
    (hdecl : ∀ x, g.declarations x = b.graph.declarations x)
    (hedges : ∀ x, x < b₀.graph.size →
      (g.outgoing x).filter (·.isBefore b₀.graph.size) =
          (b.graph.outgoing x).filter (·.isBefore b₀.graph.size) ∧
        (g.incoming x).filter (·.isBefore b₀.graph.size) =
          (b.graph.incoming x).filter (·.isBefore b₀.graph.size))
    (hres : ∀ x, g.isResolved x = b.graph.isResolved x) : Appended b₀ unit ⟨g, b.program⟩ where
  program := h.program
  size := Nat.le_trans h.size hsize
  label {x} hx := by
    rw [label?_forgetUnit, hlabel x (Nat.lt_of_lt_of_le hx h.size), ← label?_forgetUnit]
    exact h.label hx
  outgoing {x} hx := (hedges x hx).1.trans (h.outgoing hx)
  incoming {x} hx := (hedges x hx).2.trans (h.incoming hx)
  undeclared {x} hx hnil := (hdecl x).trans (h.undeclared hx hnil)
  authored {x d} hx hd := h.authored hx (hdecl x ▸ hd)
  units := h.units
  keys := h.keys
  resolved x := (hres x).trans (h.resolved x)

theorem alloc (h : Appended b₀ unit b) (name : String) (kind : SymbolKind)
    (flags : Flags SymbolFlag) : Appended b₀ unit ⟨b.graph.alloc name kind flags, b.program⟩ :=
  h.setGraph (by simp) (fun x hx => by rw [label?_alloc, if_neg (Nat.ne_of_lt hx)])
    (declarations_alloc b.graph name kind flags) (fun x _ => by simp)
    (isResolved_alloc b.graph name kind flags)

/-- An edge with a new end. -/
theorem addEdge (h : Appended b₀ unit b) {e : Edge}
    (he : b₀.graph.size ≤ e.source ∨ b₀.graph.size ≤ e.target) :
    Appended b₀ unit ⟨b.graph.addEdge e, b.program⟩ := by
  have hnew : ¬e.isBefore b₀.graph.size := by
    rw [Edge.isBefore_iff]
    rintro ⟨hs, ht⟩
    exact he.elim (Nat.not_le.mpr hs) (Nat.not_le.mpr ht)
  have hlabel : ∀ x, (b.graph.addEdge e).label? x = b.graph.label? x := label?_addEdge b.graph e
  exact h.setGraph (Nat.le_of_eq (size_eq_of_label? hlabel).symm) (fun x _ => hlabel x)
    (fun x => declarations_congr (hlabel x)) (fun x _ => filter_addEdge b.graph hnew x)
    (isResolved_addEdge b.graph e)

end Appended

/-- The symbol is new, or was declared before. -/
def Admits (b₀ : Binding) (symbol : SymbolId) : Prop :=
  symbol < b₀.graph.size → b₀.graph.declarations symbol ≠ []

theorem admits_of_le {symbol : SymbolId} (h : b₀.graph.size ≤ symbol) : b₀.Admits symbol :=
  fun hlt => absurd hlt (Nat.not_lt.mpr h)

namespace Appended

theorem declare (h : Appended b₀ unit b) {symbol : SymbolId} {d : DeclId} (hd : d.unit = unit)
    (hs : b₀.Admits symbol) : Appended b₀ unit ⟨b.graph.declare symbol d, b.program⟩ where
  program := h.program
  size := Nat.le_trans h.size (Nat.le_of_eq (size_declare _ _ _).symm)
  label {x} hx := by
    have hold := h.label hx
    rw [label?_forgetUnit] at hold ⊢
    rw [label?_declare, ← hold]
    split
    · rw [Option.map_map]
      refine Option.map_congr fun s _ => ?_
      by_cases hmem : d ∈ s.declarations <;> simp [hmem, hd, List.filter_append]
    · rfl
  outgoing {x} hx := by
    rw [outgoing_declare]
    exact h.outgoing hx
  incoming {x} hx := by
    rw [incoming_declare]
    exact h.incoming hx
  undeclared {x} hx hnil := by
    refine List.eq_nil_iff_forall_not_mem.mpr fun y hy => ?_
    rcases mem_declarations_declare.mp hy with hy | ⟨rfl, -, -⟩
    · rw [h.undeclared hx hnil] at hy
      exact absurd hy List.not_mem_nil
    · exact hs hx hnil
  authored {x y} hx hy := by
    rcases mem_declarations_declare.mp hy with hy | ⟨-, -, rfl⟩
    · exact h.authored hx hy
    · exact hd
  units := h.units
  keys := h.keys
  resolved x := (isResolved_declare _ _ _ x).trans (h.resolved x)

/-- A change of the unit itself. -/
theorem modifyUnit (h : Appended b₀ unit b) {f : CompilationUnit → CompilationUnit}
    (hid : ∀ u, (f u).id = u.id) (hpath : ∀ u, (f u).path = u.path)
    (hnum : ∀ u : CompilationUnit, u.Numbered → (f u).Numbered) :
    Appended b₀ unit ⟨b.graph, b.program.modifyUnit unit f⟩ where
  program := h.program.modifyUnit unit hid hpath hnum
  size := h.size
  label := h.label
  outgoing := h.outgoing
  incoming := h.incoming
  undeclared := h.undeclared
  authored := h.authored
  units := by
    refine Eq.trans ?_ h.units
    simp only [Program.modifyUnit]
    induction b.program.units with
    | nil => rfl
    | cons u us ih =>
        by_cases hu : u.id = unit
        · simp [hu, hid, ih]
        · simp [hu, ih]
  keys := by
    refine Eq.trans ?_ h.keys
    simp only [Program.modifyUnit, List.map_map]
    refine List.map_congr_left fun u _ => ?_
    by_cases hu : u.id = unit <;> simp [hu, hid, hpath]
  resolved := h.resolved

end Appended

/-! ### Steps -/

open BindM

variable {α : Type} {symbol : SymbolId} {scope : Option SymbolId} {d : Decl}

theorem keeps_onGraph {inv : Binding → Prop} {step : GraphM α} {post : α → Prop}
    (h : ∀ b, inv b → Contract (· = b.graph) step (fun a g => inv ⟨g, b.program⟩ ∧ post a)
      fun g => inv ⟨g, b.program⟩) : Keeps inv (onGraph step) post := by
  intro b hb
  have hstep := h b hb b.graph rfl
  unfold onGraph
  cases hs : step b.graph <;> simpa [hs] using hstep

theorem keeps_graph_bind {inv : Binding → Prop} {f : SymbolGraph → BindM α} {post : α → Prop}
    (h : ∀ g, Keeps inv (f g) post) : Keeps inv (BindM.graph >>= f) post :=
  fun b hb => h b.graph b hb

/-- What is read of the graph stands for it from then on. -/
theorem contract_graph_bind {pre fail : Binding → Prop} {post : α → Binding → Prop}
    {f : SymbolGraph → BindM α} (h : ∀ b, pre b → Contract (· = b) (f b.graph) post fail) :
    Contract pre (BindM.graph >>= f) post fail := fun b hb => h b hb b rfl

theorem appends_alloc (name : String) (kind : SymbolKind) (flags : Flags SymbolFlag) :
    Keeps (Appended b₀ unit) (alloc name kind flags) (b₀.graph.size ≤ ·) := by
  refine keeps_onGraph fun b hb => ?_
  refine (GraphM.contract_alloc name kind flags).weaken (fun _ hg => hg) ?_ fun _ hg => hg ▸ hb
  rintro id _ ⟨_, rfl, rfl, rfl⟩
  exact ⟨hb.alloc name kind flags, hb.size⟩

theorem appends_link {source target : SymbolId} (kind : EdgeKind)
    (h : b₀.graph.size ≤ source ∨ b₀.graph.size ≤ target) :
    Keeps (Appended b₀ unit) (link source target kind) := by
  refine Keeps.bind (Q := fun _ => True) (keeps_onGraph fun b hb => ?_) fun _ _ =>
    Keeps.pure True.intro
  refine (GraphM.contract_link source target kind).weaken (fun _ hg => hg) ?_ fun _ hg => hg ▸ hb
  rintro - _ ⟨_, rfl, -, -, rfl⟩
  exact ⟨hb.addEdge h, True.intro⟩

theorem appends_setInstanceType {cls inst : SymbolId} (h : b₀.graph.size ≤ cls) :
    Keeps (Appended b₀ unit) (onGraph (GraphM.setInstanceType cls inst)) := by
  refine keeps_onGraph fun b hb => ?_
  refine (GraphM.contract_setInstanceType cls inst).weaken (fun _ hg => hg) ?_ fun _ hg => hg ▸ hb
  rintro - _ ⟨_, rfl, -, -, -, rfl⟩
  exact ⟨hb.addEdge (.inl h), True.intro⟩

theorem appends_contribute {d : DeclId} (hd : d.unit = unit) (hs : b₀.Admits symbol) :
    Keeps (Appended b₀ unit) (contribute symbol d) := by
  refine keeps_onGraph fun b hb => ?_
  refine (GraphM.contract_declare symbol d).weaken (fun _ hg => hg) ?_ fun _ hg => hg ▸ hb
  rintro - _ ⟨_, rfl, -, rfl⟩
  exact ⟨hb.declare hd hs, True.intro⟩

theorem appends_record {d : DeclId} (hd : d.unit = unit) (hs : b₀.Admits symbol) :
    Keeps (Appended b₀ unit) (record d symbol) := by
  unfold record
  refine (appends_contribute hd hs).bind fun _ _ => Keeps.get_bind fun b _ => ?_
  dsimp only
  split
  · exact Keeps.throw _
  · refine Keeps.modify fun b hb => ?_
    subst hd
    exact hb.modifyUnit (by intro u; simp) (by intro u; simp)
      fun u hu => hu.modifyDecl d (by intro x; rfl)

theorem appends_addTopLevel (name : String) (symbol : SymbolId) :
    Keeps (Appended b₀ unit) (addTopLevel unit name symbol) :=
  Keeps.modify fun _ hb => hb.modifyUnit (by intro u; rfl) (by intro u; rfl) fun _ hu => hu

theorem appends_owner (scope : Option SymbolId) (d : Decl) :
    Keeps (Appended b₀ unit) (owner scope d) := by
  unfold owner
  split
  · exact Keeps.pure True.intro
  · refine keeps_graph_bind fun g => ?_
    split
    · split
      · exact Keeps.pure True.intro
      · exact Keeps.throw _
    · exact Keeps.pure True.intro

theorem appends_attach (owner : Option SymbolId) (d : Decl) (hs : b₀.graph.size ≤ symbol) :
    Keeps (Appended b₀ unit) (attach unit owner symbol d) := by
  unfold attach
  split
  · split
    · exact appends_addTopLevel _ _
    · exact Keeps.pure True.intro
  · refine keeps_graph_bind fun g => ?_
    split
    · exact appends_link _ (.inr hs)
    · exact appends_link _ (.inl hs)

/-- What a declaration merges with is declared already. -/
theorem Appended.admits_of_mergeable? (h : Appended b₀ unit b) {owner : Option SymbolId}
    {name : String} {accept : SymbolKind → Flags SymbolFlag → Bool}
    (hm : mergeable? b owner name accept = some symbol) : b₀.Admits symbol := by
  intro hlt hnil
  have hdecl := h.undeclared hlt hnil
  unfold mergeable? at hm
  split at hm
  · exact absurd hm (by simp)
  · have hp := List.find?_some hm
    cases hs : b.graph.get? symbol with
    | none => simp [hs] at hp
    | some s => simp_all [SymbolGraph.declarations, Symbol.isDeclared]

theorem appends_mergeOrCreate (d : Decl) (kind : SymbolKind)
    (accept : SymbolKind → Flags SymbolFlag → Bool) :
    Keeps (Appended b₀ unit) (mergeOrCreate unit scope d kind accept) b₀.Admits := by
  unfold mergeOrCreate
  refine (appends_owner scope d).bind fun owner _ => Keeps.get_bind fun b hb => ?_
  split
  · next symbol hm =>
    have hadmits := hb.admits_of_mergeable? hm
    dsimp only
    split
    · exact (appends_addTopLevel _ _).bind fun _ _ => Keeps.pure hadmits
    · exact Keeps.pure hadmits
  · refine (appends_alloc _ _ _).bind fun symbol hs => ?_
    exact (appends_attach owner d hs).bind fun _ _ => Keeps.pure (admits_of_le hs)

/-! ### The kinds of declarations -/

/-- The declaration and the ones directly below it are of the unit. -/
structure IsOf (unit : UnitId) (d : Decl) : Prop where
  self : d.id.unit = unit
  child : ∀ x ∈ d.children, x.unit = unit

theorem appends_bindMerged (h : IsOf unit d) (kind : SymbolKind) :
    Keeps (Appended b₀ unit) (bindMerged unit scope d kind) := by
  unfold bindMerged
  refine (appends_mergeOrCreate d kind _).bind fun symbol hs => ?_
  exact (appends_record h.self hs).bind fun _ _ => Keeps.pure True.intro

theorem appends_bindAccessor (h : IsOf unit d) :
    Keeps (Appended b₀ unit) (bindAccessor unit scope d) := by
  unfold bindAccessor
  refine (appends_mergeOrCreate d _ _).bind fun symbol hs => ?_
  exact (appends_record h.self hs).bind fun _ _ => Keeps.pure True.intro

theorem appends_bindValue (h : IsOf unit d) (kind : SymbolKind) :
    Keeps (Appended b₀ unit) (bindValue unit scope d kind) := by
  unfold bindValue create
  refine Keeps.bind (Q := fun _ => True) ?_ fun _ _ => Keeps.pure True.intro
  refine (appends_owner scope d).bind fun owner _ => (appends_alloc _ _ _).bind fun symbol hs => ?_
  exact (appends_attach owner d hs).bind fun _ _ => appends_record h.self (admits_of_le hs)

theorem appends_bindClass (h : IsOf unit d) :
    Keeps (Appended b₀ unit) (bindClass unit scope d) := by
  unfold bindClass
  refine (appends_owner scope d).bind fun owner _ => ?_
  refine (appends_alloc _ _ _).bind fun cls hcls => (appends_alloc _ _ _).bind fun inst hinst => ?_
  refine (appends_setInstanceType hcls).bind fun _ _ => ?_
  refine (appends_contribute h.self (admits_of_le hinst)).bind fun _ _ => ?_
  refine (appends_attach owner d hcls).bind fun _ _ => ?_
  exact (appends_record h.self (admits_of_le hcls)).bind fun _ _ => Keeps.pure True.intro

theorem appends_bindParameterField (hd : d.id.unit = unit) (inst : SymbolId) :
    Keeps (Appended b₀ unit) (bindParameterField inst d) := by
  unfold bindParameterField
  refine (appends_alloc _ _ _).bind fun field hs => ?_
  refine (appends_contribute hd (admits_of_le hs)).bind fun _ _ => ?_
  split
  · exact appends_link _ (.inr hs)
  · exact appends_link _ (.inr hs)

theorem appends_bindArgument (hd : d.id.unit = unit) (signature : SymbolId)
    (fieldsOf : Option SymbolId) :
    Keeps (Appended b₀ unit) (bindArgument signature fieldsOf d) := by
  unfold bindArgument
  refine (appends_alloc _ _ _).bind fun param hs => ?_
  refine (appends_record hd (admits_of_le hs)).bind fun _ _ => ?_
  refine (appends_link _ (.inr hs)).bind fun _ _ => ?_
  split
  · split
    · exact appends_bindParameterField hd _
    · exact Keeps.pure True.intro
  · exact Keeps.pure True.intro

theorem appends_bindSignature (h : IsOf unit d) (flags : Flags SymbolFlag)
    (fieldsOf : Option SymbolId) :
    Keeps (Appended b₀ unit) (bindSignature d flags fieldsOf) (b₀.graph.size ≤ ·) := by
  unfold bindSignature
  refine (appends_alloc _ _ _).bind fun signature hs => ?_
  refine (appends_contribute h.self (admits_of_le hs)).bind fun _ _ => ?_
  refine Keeps.bind (Q := fun _ => True) (Keeps.forM d.children fun child hchild => ?_)
    fun _ _ => Keeps.pure hs
  refine Keeps.get_bind fun b hb => ?_
  split
  · exact Keeps.throw _
  · next arg harg =>
    have hunit : arg.id.unit = unit := by
      rw [hb.program.id_eq harg]
      exact h.child child hchild
    split
    · exact appends_bindArgument hunit signature fieldsOf
    · exact Keeps.pure True.intro

theorem appends_bindFunction (h : IsOf unit d) :
    Keeps (Appended b₀ unit) (bindFunction unit scope d) := by
  unfold bindFunction
  refine (appends_mergeOrCreate d _ _).bind fun function hs => ?_
  refine (appends_record h.self hs).bind fun _ _ => keeps_graph_bind fun g => ?_
  refine (appends_bindSignature h _ _).bind fun signature hsig => ?_
  exact (appends_link _ (.inr hsig)).bind fun _ _ => Keeps.pure True.intro

theorem appends_constructedType (scope : Option SymbolId) :
    Keeps (Appended b₀ unit) (constructedType scope) := by
  unfold constructedType
  refine keeps_graph_bind fun g => ?_
  split
  · exact Keeps.pure True.intro
  · split
    · split
      · exact Keeps.pure True.intro
      · exact Keeps.throw _
    · exact Keeps.pure True.intro

theorem appends_hangSignature (h : IsOf unit d) {signature : SymbolId}
    (hs : b₀.graph.size ≤ signature) (kind : EdgeKind) (inside : Inside)
    (owner : Option SymbolId) :
    Keeps (Appended b₀ unit) (hangSignature kind d.id inside owner signature) := by
  have hlast : Keeps (Appended b₀ unit) (do record d.id signature; return inside : BindM Inside) :=
    (appends_record h.self (admits_of_le hs)).bind fun _ _ => Keeps.pure True.intro
  unfold hangSignature
  split
  · exact (appends_link _ (.inr hs)).bind fun _ _ => hlast
  · exact hlast

theorem appends_bindConstructor (h : IsOf unit d) :
    Keeps (Appended b₀ unit) (bindConstructor scope d) := by
  rw [bindConstructor_eq]
  refine (appends_constructedType scope).bind fun fieldsOf _ => ?_
  exact (appends_bindSignature h _ _).bind fun signature hs => appends_hangSignature h hs _ _ scope

theorem appends_bindSignatureIn (h : IsOf unit d) (owner : Option SymbolId) :
    Keeps (Appended b₀ unit) (bindSignatureIn d owner) :=
  (appends_bindSignature h _ _).bind fun _ hs => appends_hangSignature h hs _ _ owner

theorem appends_bindMemberSignature (h : IsOf unit d) :
    Keeps (Appended b₀ unit) (bindMemberSignature scope d) := by
  rw [bindMemberSignature_eq]
  split
  · exact appends_bindSignatureIn h scope
  · exact (appends_owner scope d).bind fun owner _ => appends_bindSignatureIn h owner

theorem appends_bindDecl (h : IsOf unit d) :
    Keeps (Appended b₀ unit) (bindDecl unit scope d) := by
  unfold bindDecl
  split
  · exact Keeps.pure True.intro
  iterate 3 exact appends_bindMerged h _
  · exact appends_bindClass h
  iterate 3
    split
    · exact appends_bindConstructor h
    · exact appends_bindFunction h
  iterate 2
    split
    · exact appends_bindAccessor h
    · exact appends_bindValue h _
  iterate 2 exact appends_bindValue h _
  iterate 3 exact appends_bindMemberSignature h
  · exact Keeps.pure True.intro

theorem appends_bindNext (h : IsOf unit d) (opened : Array Inside) :
    Keeps (Appended b₀ unit) (bindNext unit opened d) := by
  unfold bindNext
  split
  · exact Keeps.pure True.intro
  · exact (appends_bindDecl h).bind fun _ _ => Keeps.pure True.intro

/-- Binding a unit adds to what was there. By induction on its declarations. -/
theorem appends_bindUnit {u : CompilationUnit} (hu : u ∈ b₀.program.units) (hn : u.Nested)
    (hp : b₀.program.WellFormed) (hg : b₀.graph.Mirrored)
    (hunit : ∀ {x d}, d ∈ b₀.graph.declarations x → d.unit ≠ u.id) :
    Contract (· = b₀) (bindUnit u.id) (fun _ => Appended b₀ u.id) (Appended b₀ u.id) := by
  have hof : ∀ d ∈ u.decls.toList, IsOf u.id d := by
    intro d hd
    obtain ⟨i, hi⟩ := List.mem_iff_getElem?.mp hd
    rw [Array.getElem?_toList] at hi
    refine ⟨by rw [hp.numbered u hu i d hi], fun x hx => ?_⟩
    obtain ⟨child, hchild, -⟩ := hn.child hi hx
    exact (CompilationUnit.decl?_eq_some hchild).1
  have hrefl : Appended b₀ u.id b₀ := .refl hp hg hunit
  unfold bindUnit
  refine Contract.get_bind ?_
  rintro b rfl
  rw [hp.unitById?_eq_some_iff.mpr ⟨hu, rfl⟩]
  dsimp only
  split
  · exact Contract.throw _ fun _ hs => hs ▸ hrefl
  · have hfold : Keeps (Appended b u.id) (u.decls.toList.foldlM (bindNext u.id) #[]) :=
      Keeps.foldlM _ _ True.intro fun opened _ d hd => appends_bindNext (hof d hd) opened
    refine Contract.bind (Contract.weaken hfold (fun _ hs => hs ▸ hrefl) (fun _ _ hs => hs.1)
      fun _ hs => hs) fun _ => ?_
    exact Contract.pure _ fun _ hs => hs

end Binding

end NameBinding
