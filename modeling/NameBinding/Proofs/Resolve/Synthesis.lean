import NameBinding.Proofs.Resolve.Making
import NameBinding.Proofs.Resolve.Types

/-! # The types of nodes

What is made for a type node does not depend on what was resolved before. -/

namespace NameBinding

open SymbolGraph ResolveM

namespace SymbolGraph

variable {g : SymbolGraph} {e : Edge} {x : SymbolId}

theorem members_congr {g' : SymbolGraph} (ho : g'.outgoing x = g.outgoing x)
    (hl : g'.label? x = g.label? x) : g'.members x = g.members x := by
  rw [members, members, ho, listFor, listFor, kind?_congr hl]

/-- Only membership edges add members. -/
theorem members_addEdge_of_not_isMembership (h : ¬e.kind.isMembership) :
    (g.addEdge e).members x = g.members x := by
  have hfilter : ((g.addEdge e).outgoing x).filter (·.kind.isMembership) =
      (g.outgoing x).filter (·.kind.isMembership) := by
    rw [addEdge, if_neg h, outgoing_insertEdge]
    split
    · simp [List.filter_append, h]
    · rfl
  rw [members, members, hfilter, listFor, listFor, kind?_congr (label?_addEdge g e x)]

/-- A new symbol that becomes a member comes after the others. -/
theorem members_addEdge_alloc (hg : g.WellFormed) (hlt : x < g.size)
    (hk : ((g.kind? x).map SymbolKind.hasMembers).getD false) {kind : EdgeKind}
    (hm : kind.isMembership) (name : String) (symbolKind : SymbolKind) (flags : Flags SymbolFlag) :
    ((g.alloc name symbolKind flags).addEdge ⟨x, g.size, kind⟩).members x =
      g.members x ++ [g.size] := by
  have hlabel :
      ((g.alloc name symbolKind flags).addEdge ⟨x, g.size, kind⟩).label? x = g.label? x := by
    rw [label?_addEdge, label?_alloc, if_neg (Nat.ne_of_lt hlt)]
  have hnew : ¬(g.alloc name symbolKind flags).hasEdge ⟨x, g.size, kind⟩ := by
    rw [hasEdge, outgoing_alloc]
    exact fun he => Nat.lt_irrefl _ (hg.lt_size he).2
  have hlt' : x < (g.alloc name symbolKind flags).size := by
    rw [size_alloc]
    exact Nat.lt_succ_of_lt hlt
  have houtgoing : ((g.alloc name symbolKind flags).addEdge ⟨x, g.size, kind⟩).outgoing x =
      g.outgoing x ++ [⟨x, g.size, kind⟩] := by
    rw [addEdge, if_pos hm, outgoing_insertEdge, if_neg fun h => Nat.ne_of_lt hlt h.1,
      outgoing_insertEdge, outgoing_alloc, if_pos ⟨rfl, hlt', hnew⟩]
  rw [members, members, houtgoing, listFor, listFor, kind?_congr hlabel, if_pos hk, if_pos hk,
    List.filter_append, List.map_append]
  simp [hm]

end SymbolGraph

namespace Start

variable {b : Start} {s s' : Scene} {opened : List SymbolId} {owner x : SymbolId} {n : Nat}
  {o : Origin} {label : Symbol} {new : Set Fact} {place : TypePlace}
  {resolve : NodeRef → ResolveM SymbolId}

/-- A symbol that is being made is not a part of anything yet. -/
theorem Valid.free_make (h : b.Valid opened s) {name : String} {kind : SymbolKind}
    {flags : Flags SymbolFlag} (y : SymbolId) :
    ¬(s.make o name kind flags).graph.IsAround y s.graph.size :=
  IsAround.not_alloc h.wellFormed.toMirrored name kind flags

/-- A signature that was made is not a part of anything yet. -/
theorem free_of_runs_makeSignature (hg : s.graph.WellFormed) (h : ∀ g : SymbolGraph, g.WellFormed →
    ∀ r, Keeps (Resolution.From b.setting g) (resolve r)) {r : NodeRef}
    (hr : s.Runs (makeSignature place resolve r) x s') (y : SymbolId) : ¬s'.graph.IsAround y x := by
  have hmade : Contract _ (makeSignature place resolve r) _ _ := contract_makeSignature hg h r
  have hpost := hmade s.resolution (.refl b.setting s.graph)
  rw [hr] at hpost
  exact hpost.2.free y

theorem lt_size_of_keyword (b : Start) (kind : NodeKind) :
    (WellKnown.ofKeyword? kind).getD WellKnown.any < b.size :=
  Nat.lt_of_lt_of_le (WellKnown.ofKeyword?_getD_lt kind) b.count_le

/-! ### Parts -/

/-- A holder of parts that was made. -/
structure Holder (b : Start) (owner : SymbolId) (o : Origin) (label : Symbol) (n : Nat)
    (i : List SymbolId × SymbolId) (s : Scene) : Prop where
  ready : b.Ready owner n i.1 s
  places : s.Places i.2 o label
  made : b.size ≤ i.2

/-- A part is made, joined to its holder and given its type. -/
theorem exists_typedPart {m : ResolveM SymbolId} (hm : b.Makes owner m)
    (hkeeps : ∀ g : SymbolGraph, g.WellFormed → Keeps (Resolution.From b.setting g) m)
    (name : String) (kind : SymbolKind) {flags : Flags SymbolFlag} (hflags : flags.has .synthesized)
    (hplain : ¬flags.has .wellKnown) (linkKind : EdgeKind) (hk : linkKind.isPart) (o : Origin)
    (n : Nat) : ∃ n' new, AreTypeFacts owner new ∧ ∀ {opened s holder label},
      b.Ready owner n opened s → s.Places holder o label → b.size ≤ holder → ∃ s', s.Runs (do
        let part ← alloc name kind flags
        link holder part linkKind
        let type ← m
        setSingle part type .typedAs
        markResolved part) () s' ∧ b.Ready owner n' opened s' ∧ b.Leads new s s' ∧
          s'.Places s.graph.size (.made owner n) { name, kind, flags } ∧
            ((s.graph.alloc name kind flags).addEdge
              ⟨holder, s.graph.size, linkKind⟩).Resolves b.setting s'.graph := by
  obtain ⟨n', new, hnew, h⟩ := hm.typesPart (n + 1) (.made owner n) (.inl rfl)
  refine ⟨n', {.symbol (.made owner n) { name, kind, flags }} ∪
    edgeFacts o linkKind (.made owner n) ∪ new,
    ((AreTypeFacts.part _ _).union (.edgeFacts _ _ hk)).union hnew,
    fun {opened s holder label} hs hholder hmade => ?_⟩
  have hmake : b.Leads _ s (s.make (.made owner n) name kind flags) := leads_make hs.valid
  obtain ⟨hlinked, hl⟩ := (hs.make hflags hplain).link hk (hmake.places hholder) places_make hmade
    hs.valid.size_le hs.valid.free_make
  obtain ⟨y, s₁, s₂, hr₁, hr₂, hs₂, hl₂⟩ := h hlinked hs.not_mem_opened (hl.places places_make)
  have hpart := hl₂.places (hl.places (places_make (o := .made owner n)))
  obtain ⟨hs', hl'⟩ := hs₂.mark hpart.lt_size hs.valid.size_le
  have hrest : Scene.Runs _ (do
      let type ← m
      setSingle s.graph.size type .typedAs
      markResolved s.graph.size) () (s₂.mark s.graph.size) :=
    hr₁.bind (hr₂.bind (.markResolved s₂ s.graph.size))
  refine ⟨s₂.mark s.graph.size, ?_, hs', ?_, hl'.places hpart, hrest.resolves ?_⟩
  · refine (Scene.Runs.alloc s (.made owner n) name kind flags).bind (.bind (.link ?_ ?_) hrest)
    · exact (hmake.places hholder).lt_size
    · exact places_make.lt_size
  · refine (hmake.trans (hl.trans (hl₂.trans hl'))).congr fun f => ?_
    simp only [Set.union_empty, Set.union_assoc]
  · exact (hkeeps _ hlinked.valid.wellFormed).bind fun type _ =>
      (keeps_setSingle _ type rfl (by decide)).bind fun _ _ => keeps_markResolved _

/-! ### Members of type literals -/

/-- The methods of a type literal by their names. -/
def ListsMethods (s : Scene) (literal : SymbolId) (methods : String → Option Origin) : Prop :=
  ∀ name, ((s.graph.members literal).find? fun m =>
    s.graph.name m == name && s.graph.kind? m == some .method).map s.origin = methods name

/-- The methods by their names when one more member comes last. -/
def methodsWith (methods : String → Option Origin) (label : Symbol) (o : Origin) (name : String) :
    Option Origin :=
  (methods name).or (if label.name == name && label.kind == .method then some o else none)

/-- A type literal that is being made. -/
structure Literal (b : Start) (owner : SymbolId) (o : Origin)
    (stage : Nat × (String → Option Origin)) (i : List SymbolId × SymbolId) (s : Scene) : Prop
    extends b.Holder owner o
      { name := "", kind := .typeLiteral, flags := Flags.single .synthesized } stage.1 i s where
  methods : ListsMethods s i.2 stage.2

section ListsMethods

variable {literal m : SymbolId} {methods : String → Option Origin}
  (h : ListsMethods s literal methods) (hg : s.graph.WellFormed) (hl : b.Leads new s s')

include h hg hl

/-- What was listed is listed under the same name. -/
theorem ListsMethods.map_find? (name : String) : ((s.graph.members literal).find? fun m =>
    s'.graph.name m == name && s'.graph.kind? m == some .method).map s'.origin = methods name := by
  have hlt : ∀ m ∈ s.graph.members literal, m < s.graph.size := fun m hm =>
    lt_size_of_mem_members hg.toMirrored hm
  have hfind : (s.graph.members literal).find?
        (fun m => s'.graph.name m == name && s'.graph.kind? m == some .method) =
      (s.graph.members literal).find?
        (fun m => s.graph.name m == name && s.graph.kind? m == some .method) := by
    rw [← List.head?_filter, ← List.head?_filter]
    refine congrArg List.head? (List.filter_congr fun m hm => ?_)
    rw [hl.name (hlt m hm), hl.kind? (hlt m hm)]
  rw [hfind, ← h name]
  cases hfound : (s.graph.members literal).find?
      (fun m => s.graph.name m == name && s.graph.kind? m == some .method) with
  | none => rfl
  | some m => exact congrArg some (hl.origin (hlt m (List.mem_of_find?_eq_some hfound)))

theorem ListsMethods.keep (hm : s'.graph.members literal = s.graph.members literal) :
    ListsMethods s' literal methods := by
  intro name
  rw [hm]
  exact h.map_find? hg hl name

/-- A new member comes after the others. -/
theorem ListsMethods.append (hm : s'.graph.members literal = s.graph.members literal ++ [m])
    (hnew : s'.Places m o label) : ListsMethods s' literal (methodsWith methods label o) := by
  intro name
  have hkind : (some label.kind == some SymbolKind.method) = (label.kind == .method) := rfl
  rw [hm, List.find?_append, Option.map_or, h.map_find? hg hl name, List.find?_singleton,
    hnew.name, hnew.kind?, hkind]
  refine congrArg (methods name).or ?_
  cases hmethod : label.name == name && label.kind == .method <;> simp [hnew.origin]

end ListsMethods

namespace Literal

theorem hasMembers {stage : Nat × (String → Option Origin)} {i : List SymbolId × SymbolId}
    (h : b.Literal owner o stage i s) :
    ((s.graph.kind? i.2).map SymbolKind.hasMembers).getD false := by
  rw [h.places.kind?]
  rfl

variable {stage : Nat × (String → Option Origin)} {i : List SymbolId × SymbolId}

/-- The members of the literal stay. -/
theorem keep (h : b.Literal owner o stage i s) (hs' : b.Ready owner n i.1 s')
    (hl : b.Leads new s s') (hm : s'.graph.members i.2 = s.graph.members i.2) :
    b.Literal owner o (n, stage.2) i s' where
  ready := hs'
  places := hl.places h.places
  made := h.made
  methods := h.methods.keep h.ready.valid.wellFormed hl hm

/-- The method with a name is found or made. -/
theorem exists_literalMethod (name : String) (stage : Nat × (String → Option Origin)) :
    ∃ o' stage' new, AreTypeFacts owner new ∧ ∀ {i s}, b.Literal owner o stage i s → ∃ m label s',
      s.Runs (literalMethod i.2 name) m s' ∧ b.Literal owner o stage' i s' ∧ b.Leads new s s' ∧
        s'.Places m o' label ∧ b.size ≤ m := by
  obtain ⟨n, methods⟩ := stage
  cases hmethods : methods name with
  | some o' =>
      refine ⟨o', (n, methods), ∅, .empty, fun {i s} h => ?_⟩
      obtain ⟨m, hfind, ho⟩ := Option.map_eq_some_iff.mp ((h.methods name).trans hmethods)
      have hmem : m ∈ s.graph.members i.2 := List.mem_of_find?_eq_some hfind
      have hlt := lt_size_of_mem_members h.ready.valid.wellFormed.toMirrored hmem
      obtain ⟨label, hlabel⟩ :=
        Option.isSome_iff_exists.mp ((isSome_label? s.graph m).trans (decide_eq_true hlt))
      refine ⟨m, label, s, .graph_bind ?_, h, .refl fun f hf => absurd hf (by simp),
        ⟨hlt, ho, hlabel⟩, ?_⟩
      · rw [hfind]
        exact .pure s m
      · exact mem_members_ge b.sound.graph.toWellFormed h.ready.valid.resolves h.made hmem
  | none =>
      let label : Symbol := { name, kind := .method, flags := Flags.single .synthesized }
      refine ⟨.made owner n, (n + 1, methodsWith methods label (.made owner n)),
        {.symbol (.made owner n) label} ∪ edgeFacts o .publicProperty (.made owner n),
        (AreTypeFacts.part n label).union (.edgeFacts _ _ rfl), fun {i s} h => ?_⟩
      have hmake : b.Leads {.symbol (.made owner n) label} s _ := leads_make h.ready.valid
      have hmethod : Scene.Places _ s.graph.size (.made owner n) label := places_make
      have hliteral := hmake.places h.places
      have hpart : EdgeKind.publicProperty.isPart := rfl
      obtain ⟨hs₁, hl₁⟩ := (h.ready.make has_synthesized_single not_has_wellKnown_single).close.link
        hpart hliteral hmethod h.made h.ready.valid.size_le h.ready.valid.free_make
      obtain ⟨hs₂, hl₂⟩ := hs₁.mark (hl₁.places hmethod).lt_size h.ready.valid.size_le
      have hl := hmake.trans (hl₁.trans hl₂)
      have hnone : (s.graph.members i.2).find?
          (fun m => s.graph.name m == name && s.graph.kind? m == some .method) = none :=
        Option.map_eq_none_iff.mp ((h.methods name).trans hmethods)
      refine ⟨s.graph.size, label, _, .graph_bind ?_, ⟨⟨hs₂, hl.places h.places, h.made⟩, ?_⟩,
        hl.congr fun f => by rw [Set.union_empty], hl₂.places (hl₁.places hmethod),
        h.ready.valid.size_le⟩
      · rw [hnone]
        exact (Scene.Runs.alloc s (.made owner n) name .method _).bind
          ((Scene.Runs.link hliteral.lt_size hmethod.lt_size).bind
            ((Scene.Runs.markResolved _ _).bind (.pure _ _)))
      · refine h.methods.append h.ready.valid.wellFormed hl ?_ (hl₂.places (hl₁.places hmethod))
        refine (members_congr (outgoing_setResolved _ _ _ _) (label?_setResolved _ _ _ _)).trans ?_
        exact members_addEdge_alloc h.ready.valid.wellFormed h.places.lt_size h.hasMembers rfl _ _ _

/-- A property with its type becomes the last member. -/
theorem exists_adds_property {m : ResolveM SymbolId} (hm : b.Makes owner m)
    (hkeeps : ∀ g : SymbolGraph, g.WellFormed → Keeps (Resolution.From b.setting g) m)
    (name : String) {flags : Flags SymbolFlag} (hflags : flags.has .synthesized)
    (hplain : ¬flags.has .wellKnown) (o : Origin) (stage : Nat × (String → Option Origin)) :
    ∃ stage', b.Adds owner (b.Literal owner o stage) (b.Literal owner o stage') fun i => (do
      let part ← alloc name .field flags
      link i.2 part .publicProperty
      let type ← m
      setSingle part type .typedAs
      markResolved part) := by
  obtain ⟨n', new, hnew, h⟩ :=
    exists_typedPart hm hkeeps name .field hflags hplain .publicProperty rfl o stage.1
  let label : Symbol := { name, kind := .field, flags }
  refine ⟨(n', methodsWith stage.2 label (.made owner stage.1)), new, hnew, fun i s hs => ?_⟩
  obtain ⟨s', hr, hs', hl, hfield, hres⟩ := h hs.ready hs.places hs.made
  have hg := hs.ready.valid.wellFormed
  have hlast : s.graph.size < (s.graph.alloc name .field flags).size := lt_size_alloc _ _ _ _
  have hholder := Nat.lt_trans hs.places.lt_size hlast
  have hjoined := (hg.alloc name .field flags).addEdge
    (e := ⟨i.2, s.graph.size, .publicProperty⟩) hholder hlast
  have hmembers : s'.graph.members i.2 = s.graph.members i.2 ++ [s.graph.size] := by
    refine (hres.members_eq hjoined ?_).trans
      (members_addEdge_alloc hg hs.places.lt_size hs.hasMembers rfl _ _ _)
    rw [size_addEdge]
    exact hholder
  exact ⟨s', hr, ⟨⟨hs', hl.places hs.places, hs.made⟩, hs.methods.append hg hl hmembers hfield⟩,
    hl⟩

end Literal

/-! ### What is made for a node -/

section Nested

variable (hkeeps : ∀ g : SymbolGraph, g.WellFormed →
  ∀ r, Keeps (Resolution.From b.setting g) (resolve r))

include hkeeps

/-- A parameter is made with its type and joined to its signature. -/
theorem exists_adds_makeParameter {r : NodeRef}
    (hresolve : ∀ part, place.tree.IsPart part r → b.Makes owner (resolve part)) (o : Origin)
    (label : Symbol) (n : Nat) : ∃ n', b.Adds owner (b.Holder owner o label n)
      (b.Holder owner o label n') fun i => makeParameter place resolve i.2 r := by
  simp only [makeParameter]
  split
  · next node p _ hp =>
    have htype := hresolve p.typeNode (DocTree.isPart_typeNode_of_parameter hp)
    obtain ⟨n', new, hnew, h⟩ := exists_typedPart htype (fun g hg => hkeeps g hg p.typeNode)
      (place.tree.nameText p.name) .parameter (has_synthesized_partFlags node)
      (not_has_wellKnown_partFlags node) .parameter rfl o n
    refine ⟨n', new, hnew, fun i s hs => ?_⟩
    obtain ⟨s', hr, hs', hl, -⟩ := h hs.ready hs.places hs.made
    exact ⟨s', hr, ⟨hs', hl.places hs.places, hs.made⟩, hl⟩
  · exact ⟨n, adds_pure _⟩

/-- A signature is made with its parameters and its return type. -/
theorem makes_makeSignature {r : NodeRef}
    (hresolve : ∀ part, place.tree.IsPart part r → b.Makes owner (resolve part)) :
    b.Makes owner (makeSignature place resolve r) (IsMadeFor owner) := by
  intro n
  let label : Symbol := { name := "", kind := .signature, flags := Flags.single .synthesized }
  obtain ⟨k, new, hnew, hparameters⟩ := exists_adds_forM
    (P := b.Holder owner (.made owner n) label) (f := fun i => makeParameter place resolve i.2)
    (((place.tree.function? r).map (·.parameters)).getD [])
    (fun p hp => exists_adds_makeParameter hkeeps
      (fun part hpart => hresolve part (hpart.trans (DocTree.below_of_mem_parameters hp))) _ _)
    (n + 1)
  obtain ⟨n', new', hnew', htype⟩ :=
    (hresolve _ (DocTree.isPart_returnNode place.tree r)).typesPart k (.made owner n) (.inr rfl)
  refine ⟨.made owner n, label, n', {.symbol (.made owner n) label} ∪ (new ∪ new'), ⟨n, rfl⟩,
    (AreTypeFacts.part n label).union (hnew.union hnew'), fun {opened s} hs => ?_⟩
  obtain ⟨s₁, hr₁, hs₁, hl₁⟩ := hparameters (s.graph.size :: opened, s.graph.size) _
    ⟨hs.make has_synthesized_single not_has_wellKnown_single, places_make, hs.valid.size_le⟩
  obtain ⟨y, s₂, s₃, hr₂, hr₃, hs₃, hl₃⟩ := htype hs₁.ready hs.not_mem_opened hs₁.places
  obtain ⟨hs', hl'⟩ := hs₃.mark (hl₃.places hs₁.places).lt_size hs.valid.size_le
  refine ⟨s.graph.size, _, (Scene.Runs.alloc s (.made owner n) "" .signature _).bind
    (hr₁.bind (hr₂.bind (hr₃.bind ((Scene.Runs.markResolved s₃ _).bind (.pure _ _))))), hs', ?_,
    hl'.places (hl₃.places hs₁.places)⟩
  refine ((leads_make hs.valid).trans (hl₁.trans (hl₃.trans hl'))).congr fun f => ?_
  rw [Set.union_empty]

/-- A symbol is made with a signature. -/
theorem makes_makeCallable {r : NodeRef}
    (hresolve : ∀ part, place.tree.IsPart part r → b.Makes owner (resolve part))
    (kind : SymbolKind) {signatureKind : EdgeKind} (hk : signatureKind.isPart) :
    b.Makes owner (makeCallable place resolve r kind signatureKind) := by
  intro n
  let label : Symbol := { name := "", kind, flags := Flags.single .synthesized }
  obtain ⟨o, label', n', new, ho, hnew, h⟩ := makes_makeSignature hkeeps hresolve (n + 1)
  refine ⟨.made owner n, label, n', {.symbol (.made owner n) label} ∪
    (new ∪ edgeFacts (.made owner n) signatureKind o), True.intro,
    (AreTypeFacts.part n label).union (hnew.union (.edgeFacts _ _ hk)), fun {opened s} hs => ?_⟩
  have hmake : b.Leads {.symbol (.made owner n) label} s _ := leads_make hs.valid
  have hready : b.Ready owner (n + 1) _ (s.make (.made owner n) "" kind _) :=
    (hs.make has_synthesized_single not_has_wellKnown_single).close
  obtain ⟨x, s₁, hr₁, hs₁, hl₁, hx⟩ := h hready
  have hcallable := hl₁.places (places_make (o := .made owner n))
  have hxmade : b.size ≤ x := hs₁.valid.size_le_of_isMadeFor (hx.origin.symm ▸ ho)
  obtain ⟨hs₂, hl₂⟩ := hs₁.link hk hcallable hx hs.valid.size_le hxmade
    (free_of_runs_makeSignature hready.valid.wellFormed hkeeps hr₁)
  obtain ⟨hs', hl'⟩ := hs₂.mark (hl₂.places hcallable).lt_size hs.valid.size_le
  refine ⟨s.graph.size, _, (Scene.Runs.alloc s (.made owner n) "" kind _).bind
    (hr₁.bind ((Scene.Runs.link hcallable.lt_size hx.lt_size).bind
      ((Scene.Runs.markResolved _ _).bind (.pure _ _)))), hs', ?_,
    hl'.places (hl₂.places hcallable)⟩
  refine (hmake.trans (hl₁.trans (hl₂.trans hl'))).congr fun f => ?_
  rw [Set.union_empty]

namespace Literal

/-- A signature is made and hung on a symbol. -/
theorem exists_link_signature {r : NodeRef}
    (hresolve : ∀ part, place.tree.IsPart part r → b.Makes owner (resolve part)) (kind : EdgeKind)
    (hk : kind.isSignature) (o' : Origin) (stage : Nat × (String → Option Origin)) :
    ∃ stage' new, AreTypeFacts owner new ∧ ∀ {i s x label}, b.Literal owner o stage i s →
      s.Places x o' label → b.size ≤ x → ∃ s', s.Runs (do
        let signature ← makeSignature place resolve r
        link x signature kind) () s' ∧ b.Literal owner o stage' i s' ∧ b.Leads new s s' := by
  obtain ⟨o'', label', n', new, ho, hnew, h⟩ := makes_makeSignature hkeeps hresolve stage.1
  have hpart := EdgeKind.isPart_of_isSignature hk
  have hplain : ¬kind.isMembership := by
    cases kind <;> simp_all [EdgeKind.isSignature, EdgeKind.isMembership]
  refine ⟨(n', stage.2), new ∪ edgeFacts o' kind o'', hnew.union (.edgeFacts _ _ hpart),
    fun {i s x label} hs hx hmade => ?_⟩
  obtain ⟨y, s₁, hr₁, hs₁, hl₁, hy⟩ := h hs.ready
  have hymade : b.size ≤ y := hs₁.valid.size_le_of_isMadeFor (hy.origin.symm ▸ ho)
  obtain ⟨hs₂, hl₂⟩ := hs₁.link hpart (hl₁.places hx) hy hmade hymade
    (free_of_runs_makeSignature hs.ready.valid.wellFormed hkeeps hr₁)
  have hg := hs.ready.valid.wellFormed
  have hmembers : s₁.graph.members i.2 = s.graph.members i.2 :=
    (hr₁.resolves (keeps_makeSignature hg hkeeps r).trivial).members_eq hg hs.places.lt_size
  refine ⟨_, hr₁.bind (.link (hl₁.places hx).lt_size hy.lt_size), ?_, hl₁.trans hl₂⟩
  exact (hs.keep hs₁ hl₁ hmembers).keep hs₂ hl₂ (members_addEdge_of_not_isMembership hplain)

/-- The signature of a method is hung on the method with its name. -/
theorem exists_adds_overload {r : NodeRef}
    (hresolve : ∀ part, place.tree.IsPart part r → b.Makes owner (resolve part)) (name : String)
    (o : Origin) (stage : Nat × (String → Option Origin)) : ∃ stage',
      b.Adds owner (b.Literal owner o stage) (b.Literal owner o stage') fun i => (do
        let method ← literalMethod i.2 name
        let signature ← makeSignature place resolve r
        link method signature .callSignature) := by
  obtain ⟨o', stage₁, new₁, hnew₁, hmethod⟩ := exists_literalMethod (b := b) (o := o) name stage
  obtain ⟨stage₂, new₂, hnew₂, h⟩ :=
    exists_link_signature hkeeps hresolve .callSignature rfl o' stage₁ (o := o)
  refine ⟨stage₂, new₁ ∪ new₂, hnew₁.union hnew₂, fun i s hs => ?_⟩
  obtain ⟨m, label, s₁, hr₁, hs₁, hl₁, hm, hmade⟩ := hmethod hs
  obtain ⟨s₂, hr₂, hs₂, hl₂⟩ := h hs₁ hm hmade
  exact ⟨s₂, hr₁.bind hr₂, hs₂, hl₁.trans hl₂⟩

/-- A member of a type literal is made. -/
theorem exists_adds_makeMember {r : NodeRef}
    (hresolve : ∀ part, place.tree.IsPart part r → b.Makes owner (resolve part)) (o : Origin)
    (stage : Nat × (String → Option Origin)) : ∃ stage', b.Adds owner (b.Literal owner o stage)
      (b.Literal owner o stage') fun i => makeMember place resolve i.2 r := by
  have hsignature : ∀ (kind : EdgeKind), kind.isSignature → ∃ stage',
      b.Adds owner (b.Literal owner o stage) (b.Literal owner o stage') fun i => (do
        let signature ← makeSignature place resolve r
        link i.2 signature kind) := by
    intro kind hk
    obtain ⟨stage', new, hnew, h⟩ := exists_link_signature hkeeps hresolve kind hk o stage (o := o)
    exact ⟨stage', new, hnew, fun i s hs => h hs hs.places hs.made⟩
  have hnothing : ∃ stage', b.Adds owner (b.Literal owner o stage) (b.Literal owner o stage')
      fun _ => (pure () : ResolveM Unit) :=
    ⟨stage, adds_pure _⟩
  simp only [makeMember]
  split
  · exact hnothing
  · next node _ =>
    split
    · split
      · next p hp =>
        exact exists_adds_property (hresolve p.typeNode (DocTree.isPart_typeNode_of_property hp))
          (fun g hg => hkeeps g hg p.typeNode) _ (has_synthesized_partFlags node)
          (not_has_wellKnown_partFlags node) o stage
      · exact hnothing
    · exact exists_adds_overload hkeeps hresolve _ o stage
    · exact hsignature .callSignature rfl
    · exact hsignature .constructSignature rfl
    · exact hsignature .indexSignature rfl
    · exact hnothing

end Literal

/-- A type literal is made with its members. -/
theorem makes_makeLiteral {r : NodeRef}
    (hresolve : ∀ part, place.tree.IsPart part r → b.Makes owner (resolve part)) :
    b.Makes owner (makeLiteral place resolve r) := by
  intro n
  let label : Symbol := { name := "", kind := .typeLiteral, flags := Flags.single .synthesized }
  have hmember : ∀ m ∈ place.tree.literalMembers r, place.tree.Below m r := fun m hm =>
    DocTree.below_of_mem_literalMembers hm
  obtain ⟨stage, new, hnew, hmembers⟩ := exists_adds_forM
    (P := b.Literal owner (.made owner n)) (f := fun i => makeMember place resolve i.2)
    (place.tree.literalMembers r) (fun m hm => Literal.exists_adds_makeMember hkeeps
      (fun part hpart => hresolve part (hpart.trans (hmember m hm))) _) (n + 1, fun _ => none)
  refine ⟨.made owner n, label, stage.1, {.symbol (.made owner n) label} ∪ new, True.intro,
    (AreTypeFacts.part n label).union hnew, fun {opened s} hs => ?_⟩
  have hmake : b.Leads {.symbol (.made owner n) label} s _ := leads_make hs.valid
  have hliteral : Scene.Places _ s.graph.size (.made owner n) label := places_make
  have hready : b.Ready owner (n + 1) _ (s.make (.made owner n) "" .typeLiteral _) :=
    (hs.make has_synthesized_single not_has_wellKnown_single).close
  obtain ⟨hs₁, hl₁⟩ := hready.mark hliteral.lt_size hs.valid.size_le
  have hempty : ((s.make (.made owner n) "" .typeLiteral (Flags.single .synthesized)).mark
      s.graph.size).graph.members s.graph.size = [] := by
    rw [members, Scene.graph_mark, outgoing_setResolved, graph_make, outgoing_alloc,
      outgoing_eq_nil (Nat.le_refl _), listFor]
    exact ite_self []
  obtain ⟨s₂, hr₂, hs₂, hl₂⟩ := hmembers (opened, s.graph.size) _
    ⟨⟨hs₁, hl₁.places hliteral, hs.valid.size_le⟩, fun name => by rw [hempty]; rfl⟩
  refine ⟨s.graph.size, s₂, (Scene.Runs.alloc s (.made owner n) "" .typeLiteral _).bind
    ((Scene.Runs.markResolved _ _).bind (hr₂.bind (.pure _ _))), hs₂.ready, ?_, hs₂.places⟩
  refine (hmake.trans (hl₁.trans hl₂)).congr fun f => ?_
  rw [Set.empty_union]

/-! ### Type nodes -/

/-- What is made for a node, given what is made for the nodes below it. -/
theorem makes_typeOfNode (hcontext : ∀ x ∈ place.context, x < b.size) {r : NodeRef}
    (hresolve : ∀ part, place.tree.IsPart part r → b.Makes owner (resolve part)) :
    b.Makes owner (typeOfNode place resolve b.setting r) := by
  unfold typeOfNode
  split
  · exact .of_determines (determines_namedType hcontext _ r)
  · exact .of_determines (determines_namedType hcontext r r)
  · exact .of_determines (determines_namedType hcontext r r)
  · intro n
    obtain ⟨o, label, n', new, -, hnew, h⟩ := hresolve _ (DocTree.isPart_elementNode place.tree r) n
    refine ⟨.array o, .arrayType label.name, n', new ∪ {.symbol (.array o) (.arrayType label.name),
      .edge (.array o) .arrayOf o}, True.intro, hnew.union (.array o _), fun {opened s} hs => ?_⟩
    obtain ⟨x, s₁, hr₁, hs₁, hl₁, hx⟩ := h hs
    obtain ⟨y, s₂, hr₂, hs₂, hl₂, hy⟩ := hs₁.arrayOf hx
    exact ⟨y, s₂, hr₁.bind hr₂, hs₂, hl₁.trans hl₂, hy⟩
  · exact makes_makeCallable hkeeps hresolve _ rfl
  · exact makes_makeCallable hkeeps hresolve _ rfl
  · exact makes_makeLiteral hkeeps hresolve
  · exact .pure (b.lt_size_of_keyword _)
  · exact .pure (Nat.lt_of_lt_of_le (by decide) b.count_le)

end Nested

/-- By induction on the levels of the node. -/
theorem makes_typeWithin (hcontext : ∀ x ∈ place.context, x < b.size) (levels : Nat) {r : NodeRef}
    (hr : place.tree.HasLevels levels r) :
    b.Makes owner (typeWithin b.setting place (levels + 1) r) := by
  induction levels generalizing r with
  | zero =>
      have hany : typeWithin b.setting place 1 r = pure WellKnown.any := by
        rw [typeWithin, typeOfNode, DocTree.kind?, show place.tree.node? r = none from hr]
        rfl
      exact hany ▸ .pure (Nat.lt_of_lt_of_le (by decide) b.count_le)
  | succ levels ih =>
      rw [typeWithin]
      exact makes_typeOfNode (fun g hg r => keeps_typeWithin hg (levels + 1) r) hcontext
        fun part hpart => ih (hr part hpart)

/-- Whatever was resolved before, the same is made for a type node. -/
theorem makes_typeAt (hcontext : ∀ x ∈ place.context, x < b.size) (htree : place.tree.IsTree)
    (r : NodeRef) : b.Makes owner (typeAt b.setting place r) :=
  makes_typeWithin hcontext _ (htree.hasLevels r)

end Start

end NameBinding
