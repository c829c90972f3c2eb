import NameBinding.Proofs.Graph.WellFormed

/-! # What a symbol is apart from its edges

Edges come and go while the names, kinds, flags and declarations of symbols stay. -/

namespace NameBinding

/-- The symbol without its edges and its state. -/
def Symbol.label (s : Symbol) : Symbol :=
  { s with outgoing := [], incoming := [], resolved := false }

namespace SymbolGraph

def label? (g : SymbolGraph) (id : SymbolId) : Option Symbol := (g.get? id).map Symbol.label

theorem kind?_eq (g : SymbolGraph) (id : SymbolId) : g.kind? id = (g.label? id).map (·.kind) := by
  simp only [kind?, label?, Option.map_map]
  rfl

theorem name_eq (g : SymbolGraph) (id : SymbolId) :
    g.name id = ((g.label? id).map (·.name)).getD "" := by
  simp only [name, label?, Option.map_map]
  rfl

theorem declarations_eq (g : SymbolGraph) (id : SymbolId) :
    g.declarations id = ((g.label? id).map (·.declarations)).getD [] := by
  simp only [declarations, label?, Option.map_map]
  rfl

theorem has_eq (g : SymbolGraph) (id : SymbolId) (f : SymbolFlag) :
    g.has id f = ((g.label? id).map (·.has f)).getD false := by
  simp only [has, label?, Option.map_map]
  rfl

theorem isSynthesized_eq (g : SymbolGraph) (id : SymbolId) :
    ((g.get? id).map (·.isSynthesized)).getD false =
      (g.has id .synthesized && !g.has id .wellKnown) := by
  simp only [has]
  cases g.get? id <;> rfl

theorem isSome_label? (g : SymbolGraph) (id : SymbolId) :
    (g.label? id).isSome = decide (id < g.size) := by
  rw [label?, Option.isSome_map, isSome_get?]

/-- The symbol is neither there from the start nor made for a type. -/
def IsDeclarable (g : SymbolGraph) (id : SymbolId) : Prop :=
  ¬g.has id .synthesized ∧ ¬g.has id .wellKnown

section Congr

variable {g g' : SymbolGraph} {id : SymbolId}

theorem kind?_congr (h : g'.label? id = g.label? id) : g'.kind? id = g.kind? id := by
  rw [kind?_eq, kind?_eq, h]

theorem name_congr (h : g'.label? id = g.label? id) : g'.name id = g.name id := by
  rw [name_eq, name_eq, h]

theorem declarations_congr (h : g'.label? id = g.label? id) :
    g'.declarations id = g.declarations id := by
  rw [declarations_eq, declarations_eq, h]

theorem has_congr (h : g'.label? id = g.label? id) (f : SymbolFlag) : g'.has id f = g.has id f := by
  rw [has_eq, has_eq, h]

theorem isDeclarable_congr (h : g'.label? id = g.label? id) :
    g'.IsDeclarable id ↔ g.IsDeclarable id := by
  rw [IsDeclarable, IsDeclarable, has_congr h, has_congr h]

theorem lt_size_congr (h : g'.label? id = g.label? id) : id < g'.size ↔ id < g.size := by
  have hs : decide (id < g'.size) = decide (id < g.size) := by
    rw [← isSome_label?, h, isSome_label?]
  simpa using hs

end Congr

/-! ### Changes that leave labels alone -/

theorem label?_modify {f : Symbol → Symbol} (hf : ∀ s, (f s).label = s.label) (g : SymbolGraph)
    (id x : SymbolId) : (g.modify id f).label? x = g.label? x := by
  simp only [label?, get?_modify]
  split
  · cases g.get? x <;> simp [hf]
  · rfl

theorem label?_alloc (g : SymbolGraph) (name : String) (kind : SymbolKind)
    (flags : Flags SymbolFlag) (x : SymbolId) : (g.alloc name kind flags).label? x =
      if x = g.size then some { name, kind, flags } else g.label? x := by
  by_cases h : x = g.size <;> simp [label?, get?_alloc, nextId, h, Symbol.label]

theorem declarations_alloc (g : SymbolGraph) (name : String) (kind : SymbolKind)
    (flags : Flags SymbolFlag) (x : SymbolId) :
    (g.alloc name kind flags).declarations x = g.declarations x := by
  rw [declarations_eq, declarations_eq, label?_alloc]
  split
  · next hx =>
    subst hx
    have hnone : g.label? g.size = none := by
      rw [label?, (get?_eq_none_iff g g.size).mpr (Nat.le_refl _)]
      rfl
    rw [hnone]
    rfl
  · rfl

@[simp] theorem label?_setResolved (g : SymbolGraph) (id : SymbolId) (b : Bool) (x : SymbolId) :
    (g.setResolved id b).label? x = g.label? x :=
  label?_modify (by intro s; rfl) g id x

@[simp] theorem label?_invalidate (g : SymbolGraph) (id x : SymbolId) :
    (g.invalidate id).label? x = g.label? x := by
  refine label?_modify (fun s => ?_) g id x
  split <;> rfl

@[simp] theorem label?_insertEdge (g : SymbolGraph) (e : Edge) (x : SymbolId) :
    (g.insertEdge e).label? x = g.label? x := by
  unfold insertEdge
  split
  · rfl
  · exact (label?_modify (by intro s; rfl) _ _ x).trans (label?_modify (by intro s; rfl) g _ x)

@[simp] theorem label?_eraseEdge (g : SymbolGraph) (e : Edge) (x : SymbolId) :
    (g.eraseEdge e).label? x = g.label? x := by
  unfold eraseEdge
  exact (label?_modify (by intro s; rfl) _ _ x).trans (label?_modify (by intro s; rfl) g _ x)

@[simp] theorem label?_addEdge (g : SymbolGraph) (e : Edge) (x : SymbolId) :
    (g.addEdge e).label? x = g.label? x := by
  unfold addEdge
  split <;> simp

/-- What erasing single edges keeps. -/
theorem removeEdge_induction {P : SymbolGraph → Prop} (h : ∀ g e, P g → P (g.eraseEdge e))
    {g : SymbolGraph} (e : Edge) (hg : P g) : P (g.removeEdge e) := by
  unfold removeEdge
  dsimp only
  split
  · split
    · split
      · exact h _ _ (h _ _ hg)
      · exact h _ _ hg
    · split
      · exact List.foldlRecOn _ eraseEdge (h _ _ hg) fun g hg e _ => h g e hg
      · exact h _ _ hg
  · exact hg

theorem unlinkAll_induction {P : SymbolGraph → Prop} (h : ∀ g e, P g → P (g.eraseEdge e))
    {g : SymbolGraph} (id : SymbolId) (hg : P g) : P (g.unlinkAll id) :=
  List.foldlRecOn _ removeEdge hg fun _ hg e _ => removeEdge_induction h e hg

@[simp] theorem label?_removeEdge (g : SymbolGraph) (e : Edge) (x : SymbolId) :
    (g.removeEdge e).label? x = g.label? x :=
  removeEdge_induction (P := fun g' => g'.label? x = g.label? x)
    (fun g' e hg => (label?_eraseEdge g' e x).trans hg) e rfl

@[simp] theorem label?_unlinkAll (g : SymbolGraph) (id x : SymbolId) :
    (g.unlinkAll id).label? x = g.label? x :=
  unlinkAll_induction (P := fun g' => g'.label? x = g.label? x)
    (fun g' e hg => (label?_eraseEdge g' e x).trans hg) id rfl

theorem size_eq_of_label? {g g' : SymbolGraph} (h : ∀ x, g'.label? x = g.label? x) :
    g'.size = g.size := by
  have hlt : ∀ x, x < g'.size ↔ x < g.size := fun x => lt_size_congr (h x)
  have h1 := hlt g.size
  have h2 := hlt g'.size
  omega

@[simp] theorem size_setResolved (g : SymbolGraph) (id : SymbolId) (b : Bool) :
    (g.setResolved id b).size = g.size := size_modify g id _

@[simp] theorem size_addEdge (g : SymbolGraph) (e : Edge) : (g.addEdge e).size = g.size :=
  size_eq_of_label? (label?_addEdge g e)

@[simp] theorem size_removeEdge (g : SymbolGraph) (e : Edge) : (g.removeEdge e).size = g.size :=
  size_eq_of_label? (label?_removeEdge g e)

@[simp] theorem label?_removeTargets (g : SymbolGraph) (id : SymbolId) (kind : EdgeKind)
    (ends : List SymbolId) (x : SymbolId) : (g.removeTargets id kind ends).label? x = g.label? x :=
  removeTargets_induction (P := fun g' => g'.label? x = g.label? x)
    (fun g' _ hg' => (label?_removeEdge g' _ x).trans hg') ends rfl

@[simp] theorem size_removeTargets (g : SymbolGraph) (id : SymbolId) (kind : EdgeKind)
    (ends : List SymbolId) : (g.removeTargets id kind ends).size = g.size :=
  size_eq_of_label? (label?_removeTargets g id kind ends)

/-! ### Changes that leave the state alone -/

theorem isResolved_modify {f : Symbol → Symbol} (hf : ∀ s, (f s).resolved = s.resolved)
    (g : SymbolGraph) (id x : SymbolId) : (g.modify id f).isResolved x = g.isResolved x := by
  simp only [isResolved, get?_modify]
  split
  · cases g.get? x <;> simp [hf]
  · rfl

@[simp] theorem isResolved_insertEdge (g : SymbolGraph) (e : Edge) (x : SymbolId) :
    (g.insertEdge e).isResolved x = g.isResolved x := by
  unfold insertEdge
  split
  · rfl
  · exact (isResolved_modify (by intro s; rfl) _ _ x).trans
      (isResolved_modify (by intro s; rfl) g _ x)

@[simp] theorem isResolved_addEdge (g : SymbolGraph) (e : Edge) (x : SymbolId) :
    (g.addEdge e).isResolved x = g.isResolved x := by
  unfold addEdge
  split <;> simp

theorem lt_size_of_isResolved {g : SymbolGraph} {x : SymbolId} (h : g.isResolved x) :
    x < g.size := by
  by_contra hx
  rw [isResolved, (get?_eq_none_iff _ _).mpr (Nat.not_lt.mp hx)] at h
  exact absurd h (by simp)

@[simp] theorem isResolved_alloc (g : SymbolGraph) (name : String) (kind : SymbolKind)
    (flags : Flags SymbolFlag) (x : SymbolId) :
    (g.alloc name kind flags).isResolved x = g.isResolved x := by
  by_cases hx : x = g.size
  · simp [isResolved, get?_alloc, nextId, hx, (get?_eq_none_iff g g.size).mpr]
  · simp [isResolved, get?_alloc, nextId, hx]

theorem isResolved_setResolved (g : SymbolGraph) (id x : SymbolId) :
    (g.setResolved id true).isResolved x ↔ g.isResolved x ∨ (x = id ∧ x < g.size) := by
  have hsize := isSome_get? g x
  simp only [isResolved, setResolved, get?_modify]
  cases h : g.get? x <;> grind

@[simp] theorem isResolved_eraseEdge (g : SymbolGraph) (e : Edge) (x : SymbolId) :
    (g.eraseEdge e).isResolved x = g.isResolved x :=
  (isResolved_modify (by intro s; rfl) _ _ x).trans (isResolved_modify (by intro s; rfl) g _ x)

@[simp] theorem isResolved_unlinkAll (g : SymbolGraph) (id x : SymbolId) :
    (g.unlinkAll id).isResolved x = g.isResolved x :=
  unlinkAll_induction (P := fun g' => g'.isResolved x = g.isResolved x)
    (fun g' e hg => (isResolved_eraseEdge g' e x).trans hg) id rfl

@[simp] theorem isResolved_removeEdge (g : SymbolGraph) (e : Edge) (x : SymbolId) :
    (g.removeEdge e).isResolved x = g.isResolved x :=
  removeEdge_induction (P := fun g' => g'.isResolved x = g.isResolved x)
    (fun g' e hg => (isResolved_eraseEdge g' e x).trans hg) e rfl

@[simp] theorem isResolved_removeTargets (g : SymbolGraph) (id : SymbolId) (kind : EdgeKind)
    (ends : List SymbolId) (x : SymbolId) :
    (g.removeTargets id kind ends).isResolved x = g.isResolved x :=
  removeTargets_induction (P := fun g' => g'.isResolved x = g.isResolved x)
    (fun g' _ hg => (isResolved_removeEdge g' _ x).trans hg) ends rfl

/-- Only symbols that are there from the start keep their state. -/
theorem isResolved_invalidate {g : SymbolGraph} {id x : SymbolId} :
    (g.invalidate id).isResolved x ↔ g.isResolved x ∧ (x = id → g.has x .wellKnown) := by
  simp only [isResolved, has, invalidate, get?_modify, Symbol.has]
  cases g.get? x <;> grind

/-! ### Changes that leave edges alone -/

@[simp] theorem outgoing_setResolved (g : SymbolGraph) (id : SymbolId) (b : Bool) (x : SymbolId) :
    (g.setResolved id b).outgoing x = g.outgoing x :=
  outgoing_modify (by intro s; rfl) g id x

@[simp] theorem incoming_setResolved (g : SymbolGraph) (id : SymbolId) (b : Bool) (x : SymbolId) :
    (g.setResolved id b).incoming x = g.incoming x :=
  incoming_modify (by intro s; rfl) g id x

theorem hasEdge_setResolved (g : SymbolGraph) (id : SymbolId) (b : Bool) (e : Edge) :
    (g.setResolved id b).hasEdge e = g.hasEdge e := by
  rw [hasEdge, outgoing_setResolved, ← hasEdge]

theorem declarations_setResolved (g : SymbolGraph) (id : SymbolId) (b : Bool) (x : SymbolId) :
    (g.setResolved id b).declarations x = g.declarations x :=
  declarations_congr (label?_setResolved g id b x)

@[simp] theorem outgoing_invalidate (g : SymbolGraph) (id x : SymbolId) :
    (g.invalidate id).outgoing x = g.outgoing x := by
  refine outgoing_modify (fun s => ?_) g id x
  split <;> rfl

@[simp] theorem incoming_invalidate (g : SymbolGraph) (id x : SymbolId) :
    (g.invalidate id).incoming x = g.incoming x := by
  refine incoming_modify (fun s => ?_) g id x
  split <;> rfl

/-! ### Declarations come and go -/

theorem get?_declare (g : SymbolGraph) (id : SymbolId) (d : DeclId) (x : SymbolId) :
    (g.declare id d).get? x = if id = x then (g.get? x).map fun s =>
        if d ∈ s.declarations then s else { s with declarations := s.declarations ++ [d] }
      else g.get? x := get?_modify g id _ x

theorem mem_declarations_declare {g : SymbolGraph} {id x : SymbolId} {d y : DeclId} :
    y ∈ (g.declare id d).declarations x ↔
      y ∈ g.declarations x ∨ (x = id ∧ x < g.size ∧ y = d) := by
  have hsize := isSome_get? g x
  simp only [declarations, get?_declare]
  cases h : g.get? x <;> grind

theorem nodup_declarations_declare {g : SymbolGraph} {id x : SymbolId} {d : DeclId}
    (h : (g.declarations x).Nodup) : ((g.declare id d).declarations x).Nodup := by
  simp only [declarations, get?_declare] at h ⊢
  cases hx : g.get? x with
  | none => simp
  | some s =>
      rw [hx] at h
      by_cases hd : d ∈ s.declarations
      · simpa [hd] using h
      · have hnew : (s.declarations ++ [d]).Nodup := List.nodup_append.mpr
          ⟨h, List.nodup_singleton d, fun a ha b hb => by
            rintro rfl
            exact hd (List.mem_singleton.mp hb ▸ ha)⟩
        by_cases hid : id = x <;> simp [hd, hid, hnew]
        exact h

theorem label?_declare (g : SymbolGraph) (id : SymbolId) (d : DeclId) (x : SymbolId) :
    (g.declare id d).label? x = if id = x then (g.label? x).map fun s =>
        if d ∈ s.declarations then s else { s with declarations := s.declarations ++ [d] }
      else g.label? x := by
  simp only [label?, get?_declare]
  split
  · simp only [Option.map_map]
    refine Option.map_congr fun s _ => ?_
    by_cases hd : d ∈ s.declarations <;> simp [Symbol.label, hd]
  · rfl

theorem label?_declare_of_ne (g : SymbolGraph) {id x : SymbolId} (d : DeclId) (h : x ≠ id) :
    (g.declare id d).label? x = g.label? x := by
  rw [label?, get?_declare, if_neg (Ne.symm h)]
  rfl

@[simp] theorem kind?_declare (g : SymbolGraph) (id : SymbolId) (d : DeclId) (x : SymbolId) :
    (g.declare id d).kind? x = g.kind? x := by
  simp only [kind?, get?_declare]
  cases g.get? x <;> grind

@[simp] theorem has_declare (g : SymbolGraph) (id : SymbolId) (d : DeclId) (x : SymbolId)
    (f : SymbolFlag) : (g.declare id d).has x f = g.has x f := by
  simp only [has, get?_declare, Symbol.has]
  cases g.get? x <;> grind

@[simp] theorem isResolved_declare (g : SymbolGraph) (id : SymbolId) (d : DeclId)
    (x : SymbolId) : (g.declare id d).isResolved x = g.isResolved x := by
  refine isResolved_modify (fun s => ?_) g id x
  split <;> rfl

@[simp] theorem isDeclarable_declare (g : SymbolGraph) (id : SymbolId) (d : DeclId)
    (x : SymbolId) : (g.declare id d).IsDeclarable x ↔ g.IsDeclarable x := by
  simp [IsDeclarable]

@[simp] theorem size_declare (g : SymbolGraph) (id : SymbolId) (d : DeclId) :
    (g.declare id d).size = g.size := size_modify g id _

@[simp] theorem outgoing_declare (g : SymbolGraph) (id : SymbolId) (d : DeclId) (x : SymbolId) :
    (g.declare id d).outgoing x = g.outgoing x := by
  refine outgoing_modify (fun s => ?_) g id x
  split <;> rfl

@[simp] theorem incoming_declare (g : SymbolGraph) (id : SymbolId) (d : DeclId) (x : SymbolId) :
    (g.declare id d).incoming x = g.incoming x := by
  refine incoming_modify (fun s => ?_) g id x
  split <;> rfl

theorem get?_forgetUnit (g : SymbolGraph) (unit : UnitId) (x : SymbolId) :
    (g.forgetUnit unit).get? x = (g.get? x).map fun s =>
      { s with declarations := s.declarations.filter fun d => d.unit != unit } := by
  simp [forgetUnit, get?]

theorem label?_forgetUnit (g : SymbolGraph) (unit : UnitId) (x : SymbolId) :
    (g.forgetUnit unit).label? x = (g.label? x).map fun s =>
      { s with declarations := s.declarations.filter fun d => d.unit != unit } := by
  simp only [label?, get?_forgetUnit, Option.map_map]
  rfl

@[simp] theorem size_forgetUnit (g : SymbolGraph) (unit : UnitId) :
    (g.forgetUnit unit).size = g.size := by
  simp [forgetUnit, size]

theorem declarations_forgetUnit (g : SymbolGraph) (unit : UnitId) (x : SymbolId) :
    (g.forgetUnit unit).declarations x = (g.declarations x).filter fun d => d.unit != unit := by
  simp only [declarations, get?_forgetUnit, Option.map_map]
  cases g.get? x <;> rfl

@[simp] theorem kind?_forgetUnit (g : SymbolGraph) (unit : UnitId) (x : SymbolId) :
    (g.forgetUnit unit).kind? x = g.kind? x := by
  simp only [kind?, get?_forgetUnit, Option.map_map]
  rfl

@[simp] theorem has_forgetUnit (g : SymbolGraph) (unit : UnitId) (x : SymbolId) (f : SymbolFlag) :
    (g.forgetUnit unit).has x f = g.has x f := by
  simp only [has, get?_forgetUnit, Option.map_map]
  rfl

@[simp] theorem name_forgetUnit (g : SymbolGraph) (unit : UnitId) (x : SymbolId) :
    (g.forgetUnit unit).name x = g.name x := by
  simp only [name, get?_forgetUnit, Option.map_map]
  rfl

@[simp] theorem isResolved_forgetUnit (g : SymbolGraph) (unit : UnitId) (x : SymbolId) :
    (g.forgetUnit unit).isResolved x = g.isResolved x := by
  simp only [isResolved, get?_forgetUnit, Option.map_map]
  rfl

@[simp] theorem isDeclarable_forgetUnit (g : SymbolGraph) (unit : UnitId) (x : SymbolId) :
    (g.forgetUnit unit).IsDeclarable x ↔ g.IsDeclarable x := by
  simp [IsDeclarable]

@[simp] theorem outgoing_forgetUnit (g : SymbolGraph) (unit : UnitId) (x : SymbolId) :
    (g.forgetUnit unit).outgoing x = g.outgoing x := by
  simp only [outgoing, get?_forgetUnit, Option.map_map]
  rfl

@[simp] theorem incoming_forgetUnit (g : SymbolGraph) (unit : UnitId) (x : SymbolId) :
    (g.forgetUnit unit).incoming x = g.incoming x := by
  simp only [incoming, get?_forgetUnit, Option.map_map]
  rfl

end SymbolGraph

end NameBinding
