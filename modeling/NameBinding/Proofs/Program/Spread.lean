import NameBinding.Proofs.Program.Nesting
import NameBinding.Proofs.Tree.Spans

/-! # Where declarations stand

Main statement: where the nodes of a document stand in order inside each other, a declaration stands
inside the one around it, and behind those beside it. Only a value can have others beside it that
stand inside of it, and it comes first: they are declared in its initializer. -/

namespace NameBinding

/-! ### Relations between declarations -/

namespace Entry

variable (span : NodeRef → Span)

/-- The second declaration stands inside the first one. -/
def Around (a e : Entry) : Prop :=
  (span a.node).isValid ∧ (span a.node).start ≤ (span e.node).start ∧
    (span e.node).stop ≤ (span a.node).stop

/-- The second declaration stands behind the first one, or inside of it if it has no scope. -/
def Beside (a e : Entry) : Prop :=
  (span a.node).stop ≤ (span e.node).start ∨
    ((span a.node).start < (span e.node).start ∧ ¬a.Opens)

end Entry

namespace Outline

/-- The declarations that are not inside others. -/
def tops : Outline → List Entry
  | nil => []
  | decl e _ rest => e :: rest.tops

/-- Each declaration is in the relation with those that come later beside it. -/
def Ranked (R : Entry → Entry → Prop) : Outline → Prop
  | nil => True
  | decl e inside rest => (∀ a ∈ rest.tops, R e a) ∧ inside.Ranked R ∧ rest.Ranked R

/-- The declarations stand between two offsets, inside and beside each other. -/
structure Spread (span : NodeRef → Span) (lo hi : Nat) (o : Outline) : Prop where
  bounds : ∀ e ∈ o.tops, lo ≤ (span e.node).start ∧ (span e.node).stop ≤ hi
  linked : o.Linked (Entry.Around span) none
  ranked : o.Ranked (Entry.Beside span)

variable {R : Entry → Entry → Prop} {span : NodeRef → Span} {o o' : Outline} {a e : Entry}
  {lo lo' hi hi' : Nat}

@[simp] theorem tops_append (o o' : Outline) : (o ++ o').tops = o.tops ++ o'.tops := by
  induction o with
  | nil => rfl
  | decl e inside rest _ ih => rw [decl_append, tops, tops, ih, List.cons_append]

theorem Ranked.append (ho : o.Ranked R) (ho' : o'.Ranked R)
    (h : ∀ a ∈ o.tops, ∀ e ∈ o'.tops, R a e) : (o ++ o').Ranked R := by
  induction o with
  | nil => exact ho'
  | decl e inside rest _ ih =>
      obtain ⟨he, hrest⟩ := List.forall_mem_cons.mp h
      rw [decl_append]
      refine ⟨?_, ho.2.1, ih ho.2.2 hrest⟩
      rw [tops_append]
      exact List.forall_mem_append.mpr ⟨ho.1, he⟩

/-- An outline is put inside a declaration. -/
theorem Linked.inside (ho : o.Linked R none) (h : ∀ e ∈ o.tops, R a e) :
    o.Linked R (some a) := by
  induction o with
  | nil => exact True.intro
  | decl e inside rest _ ih =>
      obtain ⟨he, hrest⟩ := List.forall_mem_cons.mp h
      refine ⟨?_, ho.2.1, ih ho.2.2 hrest⟩
      rintro _ ⟨⟩
      exact he

namespace Spread

theorem nil : (nil : Outline).Spread span lo hi :=
  ⟨fun _ he => absurd he List.not_mem_nil, True.intro, True.intro⟩

theorem mono (h : o.Spread span lo hi) (hlo : lo' ≤ lo) (hhi : hi ≤ hi') :
    o.Spread span lo' hi' :=
  ⟨fun e he => ⟨Nat.le_trans hlo (h.bounds e he).1, Nat.le_trans (h.bounds e he).2 hhi⟩, h.linked,
    h.ranked⟩

theorem append {mid : Nat} (h : o.Spread span lo mid) (h' : o'.Spread span mid hi) (hlo : lo ≤ mid)
    (hhi : mid ≤ hi) : (o ++ o').Spread span lo hi := by
  refine ⟨?_, h.linked.append h'.linked, h.ranked.append h'.ranked fun a ha e he =>
    .inl (Nat.le_trans (h.bounds a ha).2 (h'.bounds e he).1)⟩
  rw [tops_append]
  exact List.forall_mem_append.mpr
    ⟨(h.mono (Nat.le_refl _) hhi).bounds, (h'.mono hlo (Nat.le_refl _)).bounds⟩

/-- A declaration with what is inside. -/
theorem scope (hvalid : (span e.node).isValid)
    (h : o.Spread span (span e.node).start (span e.node).stop) :
    (decl e o .nil).Spread span (span e.node).start (span e.node).stop := by
  refine ⟨?_, ⟨fun _ hx => (nomatch hx), h.linked.inside fun a ha => ⟨hvalid, h.bounds a ha⟩,
    True.intro⟩, fun _ ha => absurd ha List.not_mem_nil, h.ranked, True.intro⟩
  rintro _ (_ | ⟨_, ⟨⟩⟩)
  exact ⟨Nat.le_refl _, Nat.le_refl _⟩

/-- A value, with what is declared in its initializer and what comes after it. -/
theorem value (hopens : ¬e.Opens) (hvalid : (span e.node).start ≤ (span e.node).stop)
    (h : o.Spread span ((span e.node).start + 1) (span e.node).stop)
    (h' : o'.Spread span (span e.node).stop hi) (hhi : (span e.node).stop ≤ hi) :
    (decl e .nil (o ++ o')).Spread span (span e.node).start hi := by
  have hinner := h.mono (Nat.le_succ _) (Nat.le_refl _)
  have hrest := hinner.append h' hvalid hhi
  refine ⟨List.forall_mem_cons.mpr ⟨⟨Nat.le_refl _, hhi⟩, hrest.bounds⟩,
    ⟨fun _ hx => (nomatch hx), True.intro, hrest.linked⟩, ?_, True.intro, hrest.ranked⟩
  rw [tops_append]
  exact List.forall_mem_append.mpr ⟨fun a ha => .inr ⟨(h.bounds a ha).1, hopens⟩,
    fun a ha => .inl (h'.bounds a ha).1⟩

/-- By induction on the scopes, all of one node. -/
theorem within {r : NodeRef} {es : List Entry} (hes : ∀ e ∈ es, e.node = r)
    (hvalid : (span r).isValid) (h : o.Spread span (span r).start (span r).stop) :
    (within es o).Spread span (span r).start (span r).stop := by
  induction es with
  | nil => exact h
  | cons e es ih =>
      obtain ⟨rfl, hes⟩ := List.forall_mem_cons.mp hes
      exact scope hvalid (ih hes)

end Spread

end Outline

/-! ### The parts of a node -/

namespace Part

/-- The node that the part stands at. -/
def anchor (part : Part) : NodeRef :=
  match part.value with
  | some e => e.node
  | none => part.node

@[simp] theorem anchor_plain (r : NodeRef) : (plain r).anchor = r := rfl

/-- What a part declares is a value, of a node with the part below it. -/
def Belongs (t : DocTree) (part : Part) : Prop :=
  ∀ e, part.value = some e → ¬e.Opens ∧ (t.node? e.node).isSome ∧
    (part.node = none ∨ part.node ∈ t.children e.node)

theorem belongs_plain (t : DocTree) (r : NodeRef) : (plain r).Belongs t := fun _ he => nomatch he

end Part

namespace DocTree

variable {t : DocTree} {r : NodeRef} {node : Node} {part : Part} {path : String} {e : Entry}

theorem isSome_of_record? {record : Record} (h : t.record? r = some record) :
    (t.node? r).isSome := by
  rw [record?] at h
  obtain ⟨node, hnode, -⟩ := Option.bind_eq_some_iff.mp h
  exact Option.isSome_iff_exists.mpr ⟨node, hnode⟩

theorem not_opens_ofModifiers {kind : DeclKind} {name : String} (modifiers : Flags Modifier)
    (hk : ¬kind.isScope) : ¬(⟨r, name, kind, .ofModifiers modifiers⟩ : Entry).Opens := by
  rintro (h | ⟨-, h⟩)
  · exact hk h
  · exact Collect.not_has_accessor_ofModifiers modifiers h

theorem belongs_parameterParts (h : part ∈ t.parameterParts r) : part.anchor = r ∧ part.Belongs t := by
  unfold parameterParts at h
  split at h
  · next node p _ hp =>
    rw [List.mem_singleton.mp h]
    refine ⟨rfl, ?_⟩
    rintro _ ⟨⟩
    have hrecord := Collect.record_of_parameter? hp
    refine ⟨not_opens_ofModifiers _ (by simp [DeclKind.isScope]), isSome_of_record? hrecord,
      eq_none_or_mem_of_present ?_⟩
    simp [children_eq hrecord, Record.children]
  · exact absurd h List.not_mem_nil

theorem belongs_of_property {p : ValueParts} (hp : t.property? r = some p) {kind : DeclKind}
    {name : String} (modifiers : Flags Modifier) (hk : ¬kind.isScope) :
    Part.Belongs t ⟨some ⟨r, name, kind, .ofModifiers modifiers⟩, p.initializer⟩ := by
  rintro _ ⟨⟩
  have hrecord := Collect.record_of_property? hp
  refine ⟨not_opens_ofModifiers _ hk, isSome_of_record? hrecord, eq_none_or_mem_of_present ?_⟩
  simp [children_eq hrecord, Record.children]

theorem belongs_variableParts {modifiers : Flags Modifier}
    (h : part ∈ t.variableParts (.ofModifiers modifiers) r) : part.anchor = r ∧ part.Belongs t := by
  unfold variableParts at h
  split at h
  · next p hp =>
    rw [List.mem_singleton.mp h]
    exact ⟨rfl, belongs_of_property hp modifiers (by simp [DeclKind.isScope])⟩
  · exact absurd h List.not_mem_nil

theorem anchors_parameterParts (r : NodeRef) :
    ((t.parameterParts r).map Part.anchor).Sublist [r] := by
  unfold parameterParts
  split
  · exact List.Sublist.refl _
  · exact List.nil_sublist _

theorem anchors_variableParts (flags : Flags DeclFlag) (r : NodeRef) :
    ((t.variableParts flags r).map Part.anchor).Sublist [r] := by
  unfold variableParts
  split
  · exact List.Sublist.refl _
  · exact List.nil_sublist _

theorem anchors_flatMap {parts : NodeRef → List Part}
    (h : ∀ r, ((parts r).map Part.anchor).Sublist [r]) (rs : List NodeRef) :
    ((rs.flatMap parts).map Part.anchor).Sublist rs := by
  induction rs with
  | nil => exact List.Sublist.refl _
  | cons r rs ih =>
      rw [List.flatMap_cons, List.map_append]
      exact (h r).append ih

theorem anchors_plain (rs : List NodeRef) : (rs.map Part.plain).map Part.anchor = rs := by
  rw [List.map_map]
  exact List.map_id rs

theorem filter_sublist_present (r : NodeRef) :
    ([r].filter fun r => r.isSome).Sublist (NodeRef.present r) := by
  cases r with
  | none => exact List.Sublist.refl _
  | some i => exact List.Sublist.refl _

theorem belongs_of_mem_partsOf (h : part ∈ t.partsOf r node) : part.Belongs t := by
  unfold partsOf at h
  have hplain : ∀ {rs : List NodeRef}, part ∈ rs.map Part.plain → part.Belongs t := fun h => by
    obtain ⟨x, -, rfl⟩ := List.mem_map.mp h
    exact Part.belongs_plain t x
  cases hk : node.kind with
  | sourceFile | unknown | externalModuleReference | parameter | block | ifStatement
  | whileStatement | forStatement | expressionStatement | returnStatement | expression =>
      simp only [hk] at h
      exact hplain h
  | moduleDeclaration | classDeclaration | interfaceDeclaration =>
      simp only [hk] at h
      split at h
      · exact hplain h
      · exact absurd h List.not_mem_nil
  | functionDeclaration | functionExpression | arrowFunction | methodDeclaration | methodSignature
  | constructor | callSignature | constructSignature | indexSignature =>
      simp only [hk] at h
      split at h
      · rcases List.mem_append.mp h with h | h
        · obtain ⟨p, -, h⟩ := List.mem_flatMap.mp h
          exact (belongs_parameterParts h).2
        · exact List.mem_singleton.mp h ▸ Part.belongs_plain t _
      · exact absurd h List.not_mem_nil
  | getAccessor | setAccessor =>
      simp only [hk] at h
      split at h
      · exact List.mem_singleton.mp h ▸ Part.belongs_plain t _
      · exact absurd h List.not_mem_nil
  | propertyDeclaration | propertySignature =>
      simp only [hk] at h
      split at h
      · next p hp =>
        rw [List.mem_singleton.mp h]
        refine belongs_of_property hp _ ?_
        split <;> simp [DeclKind.isScope]
      · exact absurd h List.not_mem_nil
  | variableStatement =>
      simp only [hk] at h
      split at h
      · obtain ⟨d, -, h⟩ := List.mem_flatMap.mp h
        exact (belongs_variableParts h).2
      · exact absurd h List.not_mem_nil
  | variableDeclaration =>
      simp only [hk] at h
      exact (belongs_variableParts h).2
  | importEqualsDeclaration =>
      simp only [hk] at h
      split at h
      · next i hi =>
        rw [List.mem_singleton.mp h]
        rintro _ ⟨⟩
        exact ⟨not_opens_ofModifiers _ (by simp [DeclKind.isScope]), isSome_of_record? hi, .inl rfl⟩
      · exact absurd h List.not_mem_nil
  | _ =>
      simp only [hk] at h
      exact absurd h List.not_mem_nil

/-- The parts stand below the node, in order, or there is one part, which is a value of the node
itself. -/
theorem anchors_partsOf (path : String) (r : NodeRef) (node : Node) :
    (((t.partsOf r node).map Part.anchor).filter fun r => r.isSome).Sublist (t.children r) ∨
      (t.opens path r node = [] ∧ ∃ e x, t.partsOf r node = [⟨some e, x⟩] ∧ e.node = r) := by
  have hmissing : ((([] : List Part).map Part.anchor).filter fun r => r.isSome).Sublist
      (t.children r) := List.nil_sublist _
  have hsome : ∀ {rs : List NodeRef}, rs.Sublist (t.children r) →
      (((rs.map Part.plain).map Part.anchor).filter fun r => r.isSome).Sublist (t.children r) :=
    fun h => by
      rw [anchors_plain]
      exact List.filter_sublist.trans h
  unfold partsOf opens
  cases node.kind with
  | sourceFile | unknown | externalModuleReference | parameter | block | ifStatement
  | whileStatement | forStatement | expressionStatement | returnStatement | expression =>
      exact .inl (hsome (List.Sublist.refl _))
  | moduleDeclaration | classDeclaration | interfaceDeclaration =>
      dsimp only
      split
      · next hrecord =>
        refine .inl (hsome ?_)
        rw [children_eq hrecord]
        exact List.sublist_append_right _ _
      · exact .inl hmissing
  | functionDeclaration | functionExpression | arrowFunction | methodDeclaration | methodSignature
  | constructor | callSignature | constructSignature | indexSignature =>
      dsimp only
      split
      · next f hf =>
        refine .inl ?_
        rw [List.map_append, List.filter_append, children_of_function hf]
        have hparameters := List.filter_sublist (p := fun r : NodeRef => r.isSome).trans
          (anchors_flatMap (anchors_parameterParts (t := t)) f.parameters)
        refine (hparameters.trans ?_).append (filter_sublist_present f.body)
        exact (List.sublist_append_right _ _).trans (List.sublist_append_left _ _)
      · exact .inl hmissing
  | getAccessor | setAccessor =>
      dsimp only
      split
      · next f hf =>
        refine .inl ?_
        rw [children_of_function hf]
        exact (filter_sublist_present f.body).trans (List.sublist_append_right _ _)
      · exact .inl hmissing
  | propertyDeclaration | propertySignature =>
      dsimp only
      split
      · exact .inr ⟨rfl, _, _, rfl, rfl⟩
      · exact .inl hmissing
  | variableStatement =>
      dsimp only
      split
      · next declarations hrecord =>
        refine .inl (List.filter_sublist.trans ?_)
        rw [children_eq hrecord]
        exact anchors_flatMap (anchors_variableParts _) declarations
      · exact .inl hmissing
  | variableDeclaration =>
      dsimp only
      unfold variableParts
      split
      · exact .inr ⟨rfl, _, _, rfl, rfl⟩
      · exact .inl hmissing
  | importEqualsDeclaration =>
      dsimp only
      split
      · exact .inr ⟨rfl, _, _, rfl, rfl⟩
      · exact .inl hmissing
  | _ => exact .inl hmissing

/-! ### The outline of a document -/

variable {span : NodeRef → Span} {inside : NodeRef → Outline} {lo hi : Nat}

/-- What is visited for a part stands where the part does. -/
structure SeatsPart (t : DocTree) (span : NodeRef → Span) (inside : NodeRef → Outline)
    (part : Part) : Prop where
  plain : part.value = none → (t.node? part.node).isSome →
    (inside part.node).Spread span (span part.node).start (span part.node).stop
  missing : ¬(t.node? part.node).isSome → inside part.node = .nil
  value : ∀ e, part.value = some e → ¬e.Opens ∧ (t.node? e.node).isSome ∧
    (inside part.node).Spread span ((span e.node).start + 1) (span e.node).stop

theorem spread_parts {parts : List Part} (h : t.Tiles span lo (parts.map Part.anchor) hi)
    (hparts : ∀ part ∈ parts, t.SeatsPart span inside part) :
    (Part.outline inside parts).Spread span lo hi := by
  induction parts generalizing lo with
  | nil => exact .nil
  | cons part parts ih =>
      obtain ⟨hpart, hlater⟩ := List.forall_mem_cons.mp hparts
      obtain ⟨_ | e, x⟩ := part
      · rw [List.map_cons, Tiles] at h
        rw [Part.outline]
        by_cases hx : (t.node? x).isSome
        · obtain ⟨hlo, hlt, hrest⟩ := (if_pos hx).mp h
          exact ((hpart.plain rfl hx).append (ih hrest hlater) (Nat.le_of_lt hlt) hrest.le).mono hlo
            (Nat.le_refl _)
        · rw [hpart.missing hx]
          exact ih ((if_neg hx).mp h) hlater
      · obtain ⟨hopens, hnode, hinside⟩ := hpart.value e rfl
        rw [List.map_cons, Tiles] at h
        obtain ⟨hlo, hlt, hrest⟩ := (if_pos hnode).mp h
        rw [Part.outline]
        exact (Outline.Spread.value hopens (Nat.le_of_lt hlt) hinside (ih hrest hlater) hrest.le).mono
          hlo (Nat.le_refl _)

/-- The nodes at and below the root are valid and neat. -/
def NeatBelow (t : DocTree) (root : NodeRef) : Prop :=
  ∀ r, r = root ∨ t.Below r root → (t.node? r).isSome → (t.span r).isValid ∧ t.Neat t.span r

theorem outline_eq_nil (path : String) (levels : Nat) (h : ¬(t.node? r).isSome) :
    t.outline path levels r = .nil := by
  cases levels with
  | zero => rfl
  | succ levels =>
      rw [outline, show t.node? r = none by simpa using h]

theorem node_of_mem_moduleEntries {segments : List String} :
    ∀ {flags : Flags DeclFlag}, e ∈ moduleEntries r flags segments → e.node = r := by
  induction segments with
  | nil => exact fun h => absurd h List.not_mem_nil
  | cons segment segments ih =>
      intro flags h
      rcases List.mem_cons.mp h with rfl | h
      · rfl
      · exact ih h

theorem node_of_mem_opens (h : e ∈ t.opens path r node) : e.node = r := by
  unfold opens at h
  cases hk : node.kind with
  | sourceFile =>
      simp only [hk, List.mem_singleton] at h
      exact h ▸ rfl
  | moduleDeclaration =>
      simp only [hk] at h
      split at h
      · split at h
        · exact List.mem_singleton.mp h ▸ rfl
        · exact node_of_mem_moduleEntries h
      · exact absurd h List.not_mem_nil
  | classDeclaration | interfaceDeclaration =>
      simp only [hk] at h
      split at h
      · exact List.mem_singleton.mp h ▸ rfl
      · exact absurd h List.not_mem_nil
  | functionDeclaration | functionExpression | arrowFunction | methodDeclaration | methodSignature
  | constructor | callSignature | constructSignature | indexSignature | getAccessor | setAccessor =>
      simp only [hk, mem_ofFunction_iff] at h
      obtain ⟨f, -, rfl⟩ := h
      rfl
  | _ =>
      simp only [hk] at h
      exact absurd h List.not_mem_nil

section Levels

variable {root : NodeRef} {levels : Nat} (h : t.NeatBelow root)
  (ih : ∀ {r}, (r = root ∨ t.Below r root) → (t.node? r).isSome →
    (t.outline path levels r).Spread t.span (t.span r).start (t.span r).stop)

theorem below_of_child (hr : r = root ∨ t.Below r root) {c : NodeRef} (hc : c ∈ t.children r) :
    t.Below c root := by
  rcases hr with rfl | hr
  · exact .single hc
  · exact .head hc hr

include h ih

/-- What is declared in an initializer stands inside its value. -/
theorem spread_initializer (hr : r = root ∨ t.Below r root) (hnode : (t.node? r).isSome)
    {x : NodeRef} (hx : x = none ∨ x ∈ t.children r) :
    (t.outline path levels x).Spread t.span ((t.span r).start + 1) (t.span r).stop := by
  by_cases hxnode : (t.node? x).isSome
  · have hmem := hx.resolve_left fun hnone => by simp [hnone, node?] at hxnode
    have hbounds := Tiles.bounds (h r hr hnode).2 hmem hxnode
    exact (ih (.inr (below_of_child hr hmem)) hxnode).mono hbounds.1 hbounds.2.2
  · rw [outline_eq_nil path levels hxnode]
    exact .nil

theorem seatsPart (hr : r = root ∨ t.Below r root) (hpart : part ∈ t.partsOf r node)
    (hanchors : (((t.partsOf r node).map Part.anchor).filter fun r => r.isSome).Sublist
      (t.children r)) : t.SeatsPart t.span (t.outline path levels) part := by
  have hanchor : (t.node? part.anchor).isSome → t.Below part.anchor root := by
    intro hx
    refine below_of_child hr (hanchors.subset (List.mem_filter.mpr ⟨List.mem_map_of_mem hpart, ?_⟩))
    cases hnone : part.anchor with
    | none => simp [hnone, node?] at hx
    | some i => rfl
  refine ⟨fun hplain hx => ?_, outline_eq_nil path levels, fun e he => ?_⟩
  · have hself : part.anchor = part.node := by rw [Part.anchor, hplain]
    exact ih (.inr (hself ▸ hanchor (hself ▸ hx))) hx
  · obtain ⟨hopens, hnode, hx⟩ := belongs_of_mem_partsOf hpart e he
    have hself : part.anchor = e.node := by rw [Part.anchor, he]
    exact ⟨hopens, hnode,
      spread_initializer h ih (.inr (hself ▸ hanchor (hself ▸ hnode))) hnode hx⟩

end Levels

/-- By induction on the levels. -/
theorem spread_outline {root : NodeRef} (h : t.NeatBelow root) (path : String) (levels : Nat)
    (hr : r = root ∨ t.Below r root) (hnode : (t.node? r).isSome) :
    (t.outline path levels r).Spread t.span (t.span r).start (t.span r).stop := by
  induction levels generalizing r with
  | zero => exact .nil
  | succ levels ih =>
      obtain ⟨node, hget⟩ := Option.isSome_iff_exists.mp hnode
      obtain ⟨hvalid, hneat⟩ := h r hr hnode
      rw [outline, hget]
      refine .within (fun e he => node_of_mem_opens he) hvalid ?_
      rcases t.anchors_partsOf path r node with hanchors | ⟨-, e, x, hparts, rfl⟩
      · have htiles := (Tiles.sublist hneat hanchors).of_filter_isSome
        exact (spread_parts htiles fun part hpart => seatsPart h ih hr hpart hanchors).mono
          (Nat.le_succ _) (Nat.le_refl _)
      · obtain ⟨hopens, -, hx⟩ := belongs_of_mem_partsOf (hparts ▸ List.mem_singleton_self _) e rfl
        rw [hparts]
        exact .value hopens (Span.isValid_iff.mp hvalid).2 (spread_initializer h ih hr hnode hx) .nil
          (Nat.le_refl _)

/-- The script stands around the document. -/
theorem spread_rootOutline {root : NodeRef} (h : t.NeatBelow root) (path : String) (limit : Nat) :
    (t.rootOutline path limit root).Spread t.span (t.span root).start (t.span root).stop := by
  by_cases hnode : (t.node? root).isSome
  · have hinside := spread_outline h path limit (.inl rfl) hnode
    unfold rootOutline
    split
    · exact hinside
    · exact Outline.Spread.scope (e := ⟨root, path, .script, ∅⟩) (h root (.inl rfl) hnode).1 hinside
  · unfold rootOutline
    rw [outline_eq_nil path limit hnode]
    split
    · exact .nil
    · refine ⟨?_, ⟨fun _ hx => (nomatch hx), True.intro, True.intro⟩,
        fun _ ha => absurd ha List.not_mem_nil, True.intro, True.intro⟩
      rintro _ (_ | ⟨_, ⟨⟩⟩)
      exact ⟨Nat.le_refl _, Nat.le_refl _⟩

end DocTree

/-! ### Collected units -/

namespace CompilationUnit

variable {R : Entry → Entry → Prop} {u : CompilationUnit} {parent : Option DeclId} {p i : Nat}

/-- Each declaration is in the relation with the later ones that have the same parent. -/
def Ranked (R : Entry → Entry → Prop) (u : CompilationUnit) : Prop :=
  ∀ p i j, u.Parent p i → u.Parent p j → i < j →
    ∃ a e, u.entryAt i = some a ∧ u.entryAt j = some e ∧ R a e

theorem exists_entry_of_parent (h : u.Parent p i) : ∃ e, u.entryAt i = some e := by
  obtain ⟨d, hd, -⟩ := h
  exact ⟨d.entry, by rw [entryAt, hd, Option.map_some]⟩

/-- Below an old declaration come only those that are laid there. -/
theorem parent_of_parent_lay {o : Outline} (h : (u.lay parent o).Parent p i)
    (hp : p < u.decls.size) : u.Parent p i ∨ parent = some ⟨u.id, p⟩ := by
  induction o generalizing u parent with
  | nil => exact .inl h
  | decl e inside rest ihi ihr =>
      have hwrite : p < (u.write parent e).decls.size := by simp; omega
      rcases ihr h (Nat.lt_of_lt_of_le hwrite (size_le_size_lay ..)) with h | hparent
      · rcases ihi h hwrite with h | hnew
        · exact ((parent_write_iff ..).mp h).imp_right And.right
        · have hsize : u.decls.size = p := congrArg DeclId.index (Option.some.inj hnew)
          omega
      · exact .inr (by simpa using hparent)

theorem Ranked.write (h : u.Ranked R) {e : Entry}
    (he : ∀ p i a, parent = some ⟨u.id, p⟩ → u.Parent p i → u.entryAt i = some a → R a e) :
    (u.write parent e).Ranked R := by
  intro p i j hi hj hij
  rcases (parent_write_iff ..).mp hi with hi | ⟨rfl, -⟩
  · have hlt : i < u.decls.size := by
      obtain ⟨d, hd, -⟩ := hi
      exact lt_size_of_getElem? hd
    rw [entryAt_write_of_lt _ _ hlt]
    rcases (parent_write_iff ..).mp hj with hj | ⟨rfl, hparent⟩
    · obtain ⟨a, e', ha, he', hR⟩ := h p i j hi hj hij
      exact ⟨a, e', ha, by rw [entryAt_write_of_lt _ _ (lt_size_of_entryAt he'), he'], hR⟩
    · obtain ⟨a, ha⟩ := exists_entry_of_parent hi
      exact ⟨a, e, ha, entryAt_write_size .., he p i a hparent hi ha⟩
  · have hlt : j < (u.write parent e).decls.size := by
      obtain ⟨d, hd, -⟩ := hj
      exact lt_size_of_getElem? hd
    rw [size_write] at hlt
    omega

/-- By induction on the outline. -/
theorem Ranked.lay {o : Outline} (h : u.Ranked R) (hroot : u.Rooted) (hparent : u.Holds parent)
    (ho : o.Ranked R) (hbefore : ∀ e ∈ o.tops, ∀ p i a, parent = some ⟨u.id, p⟩ → u.Parent p i →
      u.entryAt i = some a → R a e) : (u.lay parent o).Ranked R := by
  induction o generalizing u parent with
  | nil => exact h
  | decl e inside rest ihi ihr =>
      obtain ⟨he, hlater⟩ := List.forall_mem_cons.mp hbefore
      have hnew := holds_nextDecl_write u parent e
      have hwrooted := hroot.write hparent e
      have hinside : ((u.write parent e).lay (some u.nextDecl) inside).Ranked R := by
        refine ihi (h.write he) hwrooted hnew ho.2.1 fun e' _ p i a hp hi _ => ?_
        -- The new declaration has nothing inside yet.
        obtain rfl : u.decls.size = p := congrArg DeclId.index (Option.some.inj hp)
        rcases (parent_write_iff ..).mp hi with hi | ⟨-, hself⟩
        · exact absurd (hroot _ _ hi) (Nat.lt_irrefl _)
        · exact absurd (hparent _ hself).2 (Nat.lt_irrefl _)
      refine ihr hinside (hwrooted.lay hnew inside) ((hparent.write _ e).lay _ inside) ho.2.2
        fun e' he' p i a hp hi ha => ?_
      have hp : parent = some ⟨u.id, p⟩ := by simpa using hp
      have hlt : p < u.decls.size := (hparent _ hp).2
      have hi : (u.write parent e).Parent p i := by
        refine (parent_of_parent_lay hi (by simp; omega)).resolve_right fun hnew => ?_
        exact Nat.ne_of_gt hlt (congrArg DeclId.index (Option.some.inj hnew))
      have hentry : (u.write parent e).entryAt i = some a := by
        obtain ⟨d, hd, -⟩ := hi
        rwa [entryAt_lay_of_lt _ _ (lt_size_of_getElem? hd)] at ha
      rcases (parent_write_iff ..).mp hi with hi | ⟨rfl, -⟩
      · refine hlater e' he' p i a hp hi ?_
        obtain ⟨d, hd, -⟩ := hi
        rwa [entryAt_write_of_lt _ _ (lt_size_of_getElem? hd)] at hentry
      · rw [entryAt_write_size] at hentry
        exact Option.some.inj hentry ▸ ho.1 e' he'

theorem ranked_collect_of_outline {path : String} {t : DocTree} {root : NodeRef} {limit : Nat}
    (h : (t.rootOutline path limit root).Ranked R) (id : UnitId) :
    ((ofTree id path t root).collect limit).Ranked R := by
  have hnone := not_parent_ofTree id path t root
  rw [collect_ofTree]
  exact Ranked.lay (fun p i _ hi => absurd hi (hnone p i)) (fun p i hi => absurd hi (hnone p i))
    (holds_none _) h fun _ _ p i _ _ hi => absurd hi (hnone p i)

/-- Declarations have the spans of their nodes. -/
def ReadsSpans (u : CompilationUnit) : Prop :=
  ∀ (i : Nat) (d : Decl), u.decls[i]? = some d → d.span = u.tree.span d.node

theorem ReadsSpans.write (h : u.ReadsSpans) (parent : Option DeclId) (e : Entry) :
    (u.write parent e).ReadsSpans := by
  intro i d hd
  rw [CompilationUnit.write, tree_addDecl]
  refine forall_addDecl (P := fun _ d => d.span = u.tree.span d.node) h rfl (fun i y hy => ?_) i d hd
  rwa [span_withChild, node_withChild]

theorem readsSpans_collect (id : UnitId) (path : String) (t : DocTree) (root : NodeRef)
    (limit : Nat) : ((ofTree id path t root).collect limit).ReadsSpans := by
  rw [collect_ofTree]
  exact lay_induction (fun _ parent e h => h.write parent e)
    (show (ofTree id path t root).ReadsSpans from fun i d hd => by simp [ofTree] at hd) none _

end CompilationUnit

end NameBinding
