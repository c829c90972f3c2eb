import NameBinding.Proofs.Place.Overloads
import NameBinding.Proofs.Workspace.Merging
import NameBinding.Proofs.Workspace.Ranks

/-! # Overloads

Each declaration of a function makes one signature. Main statement: in a workspace that requests lead
to, the signatures that a function has from its own declarations correspond to these in order, and so
do the parameters of each to the arguments. One signature at most is a definition, and it is listed
last. -/

namespace NameBinding

open SymbolGraph

/-- The signatures of a function that its own declarations make. -/
def SymbolGraph.overloads (g : SymbolGraph) (f : SymbolId) : List SymbolId :=
  (g.targets f .callSignature).filter fun s => (g.declarations s).any (· ∈ g.declarations f)

namespace Workspace

variable {c : Chart} {w : Workspace} {u : CompilationUnit} {f s x y : SymbolId} {q : Place}
  {spot : Spot} {kind : EdgeKind} {d : DeclId} {decl : Decl}

/-! ### Lists and places -/

/-- What is listed as a signature or as a parameter stands at a place that says so. -/
theorem Surveyed.exists_spot (h : Surveyed c w) (hk : kind.isSignature ∨ kind = .parameter)
    (hx : c.place x = some q) (he : w.graph.hasEdge ⟨x, y, kind⟩) :
    ∃ spot, c.place y = some (.single q spot) ∧ spot.attachment = .listed kind := by
  have hstructural : kind.isStructural := by
    rcases hk with hk | rfl
    · exact EdgeKind.isStructural_of_isSole (EdgeKind.isSole_of_isSignature hk)
    · rfl
  obtain ⟨y', x', r, a, hy', hx', ha, hmem⟩ :=
    (h.charted.joined hstructural (.inl (by simp [hx]))).mp he
  obtain ⟨r', hr', hacc⟩ := h.charted.attached ha
  obtain rfl := Option.some.inj (hy'.symm.trans hr')
  obtain ⟨rfl, rfl, rfl⟩ := hacc.proper.eq_listed hk hmem
  have howner : r.owner = q := Option.some.inj (hx'.symm.trans hx)
  cases r with
  | top => exact absurd hacc (by simp [Place.Accepts])
  | shared owner name k =>
      obtain ⟨-, membership, hmember⟩ := hacc
      cases kind <;> simp [Attachment.listed] at hmember
  | single owner spot =>
      obtain rfl : owner = q := howner
      exact ⟨spot, hy', hacc.2.symm⟩

/-- At such a place stands a symbol that is listed. -/
theorem Surveyed.exists_listed (h : Surveyed c w) (hk : kind.isSignature ∨ kind = .parameter)
    (hx : c.place x = some q) (ha : spot.attachment = .listed kind)
    (hd : c.contributes d (.single q spot)) :
    ∃ y, w.graph.hasEdge ⟨x, y, kind⟩ ∧ d ∈ w.graph.declarations y := by
  obtain ⟨y, hy⟩ := h.charted.filled hd
  obtain ⟨a, hattached⟩ := h.settled.hung hy
  obtain ⟨r, hr, hacc⟩ := h.charted.attached hattached
  obtain rfl := Option.some.inj (hy.symm.trans hr)
  obtain rfl : a = .listed kind := hacc.2.trans ha
  refine ⟨y, h.charted.hasEdge_of_joins ⟨y, x, _, _, hy, hx, hattached, ?_⟩,
    (h.charted.declarations hy d).mpr hd⟩
  rw [Attachment.edges_listed hk]
  exact List.mem_singleton_self _

/-- Signatures and parameters have the kind that their place says, and one declaration. -/
theorem Surveyed.of_spot (h : Surveyed c w) (hx : c.place x = some (.single q spot)) :
    (spot.attachment = .listed .callSignature → w.graph.kind? x = some .signature) ∧
      (spot.attachment = .listed .parameter → w.graph.kind? x = some .parameter) ∧
      ∃ d, w.graph.declarations x = [d] := by
  obtain ⟨d, hd⟩ := h.settled.backed hx
  obtain ⟨hsignature, hparameter, -⟩ := (h.contributes.mp hd).kinded q spot rfl
  have hkind : w.graph.kind? x = some spot.kind := h.charted.kind? hx
  refine ⟨fun ha => ?_, fun ha => ?_, h.declarations_of_single hx⟩
  · rw [hkind, hsignature _ ha]
  · rw [hkind, hparameter ha]

/-! ### What one declaration makes -/

theorem id_eq_of_decl? (h : u.decl? d = some decl) : d = ⟨u.id, d.index⟩ := by
  rw [← (CompilationUnit.decl?_eq_some h).1]

/-- A declaration contributes in its scope, or as an argument of another one. -/
theorem Surveyed.exists_outcome (h : Surveyed c w) (hd : c.contributes d q) :
    ∃ u ∈ w.program.units, u.id = d.unit ∧ ∃ e scope, u.decl? e.id = some e ∧
      u.scopeAt e = .scope scope ∧ (d.index, q) ∈ (e.outcome u.path scope (u.arguments e)).1 := by
  obtain ⟨u, hu, hid, hplace⟩ := h.contributes.mp hd
  obtain ⟨e, he, hmem⟩ :=
    (CompilationUnit.mem_places_iff (h.charted.program.numbered u hu)).mp hplace
  obtain ⟨scope, hscope⟩ := CompilationUnit.exists_scopeAt (List.ne_nil_of_mem hmem)
  rw [CompilationUnit.outcomeAt_eq hscope] at hmem
  exact ⟨u, hu, hid, e, scope, he, hscope, hmem⟩

/-- The declaration is one of the function at a place. -/
structure DeclaresFunction (w : Workspace) (q : Place) (u : CompilationUnit) (decl : Decl)
    (scope : Place) : Prop where
  mem : u ∈ w.program.units
  found : u.decl? decl.id = some decl
  opened : u.scopeAt decl = .scope scope
  place : q = decl.mergedAt u.path (decl.ownerAt scope) decl.functionKind
  outcome : decl.outcome u.path scope (u.arguments decl) =
    decl.functionOutcome u.path scope (u.arguments decl)

theorem Surveyed.exists_declaresFunction (h : Surveyed c w) {k : SymbolKind}
    (hq : q.kind? = some k) (hf : k.isFunctionLike) (hd : c.contributes d q) :
    ∃ u decl scope, decl.id = d ∧ DeclaresFunction w q u decl scope := by
  obtain ⟨u, hu, hid, e, scope, he, hscope, hmem⟩ := h.exists_outcome hd
  obtain ⟨hindex, hplace, hout⟩ := Decl.outcome_eq_functionOutcome hmem hq hf
  refine ⟨u, e, scope, ?_, hu, he, hscope, hplace, hout⟩
  rw [id_eq_of_decl? he, hid, ← hindex]

namespace DeclaresFunction

variable {scope : Place} (hf : DeclaresFunction w q u decl scope) (h : Surveyed c w)
include hf h

theorem contributes {i : Nat} {r : Place}
    (hi : (i, r) ∈ (decl.functionOutcome u.path scope (u.arguments decl)).1) :
    c.contributes ⟨u.id, i⟩ r := by
  refine h.contributes.mpr ⟨u, hf.mem, rfl, ?_⟩
  refine (CompilationUnit.mem_places_iff (h.charted.program.numbered u hf.mem)).mpr
    ⟨decl, hf.found, ?_⟩
  rwa [CompilationUnit.outcomeAt_eq hf.opened, hf.outcome]

theorem contributes_signature : c.contributes decl.id (.single q (decl.overloadSpot u.path)) := by
  rw [id_eq_of_decl? hf.found, hf.place]
  exact hf.contributes h (List.mem_cons_of_mem _ List.mem_cons_self)

/-- It makes no other signature. -/
theorem eq_overloadSpot (ha : spot.attachment = .listed .callSignature)
    (hd : c.contributes decl.id (.single q spot)) : spot = decl.overloadSpot u.path := by
  obtain ⟨v, hv, hid, e, p, he, hp, hmem⟩ := h.exists_outcome hd
  obtain rfl := h.charted.program.eq_of_id hv hf.mem
    (hid.trans (CompilationUnit.decl?_eq_some hf.found).1)
  have hhangs := Decl.hangs_of_mem_outcome hmem
  rw [ha] at hhangs
  cases hhangs with
  | self hi =>
      obtain rfl := CompilationUnit.decl_eq_of_index hf.found he hi
      obtain rfl := Opened.scope.inj (hf.opened.symm.trans hp)
      rw [hf.outcome] at hmem
      exact Decl.eq_overloadSpot_of_mem_functionOutcome hmem ha

/-- Below the signature stand the parameters of the arguments. -/
theorem contributes_parameter_iff : (∃ r : Spot, r.attachment = .listed .parameter ∧
    c.contributes d (.single (.single q (decl.overloadSpot u.path)) r)) ↔
      ∃ arg ∈ u.arguments decl, arg.id = d := by
  have hargument : ∀ arg ∈ u.arguments decl, arg.id = ⟨u.id, arg.id.index⟩ := fun arg harg =>
    id_eq_of_decl? (CompilationUnit.decl?_of_mem_arguments
      (h.charted.program.numbered u hf.mem) harg).1
  constructor
  · rintro ⟨r, ha, hr⟩
    obtain ⟨v, hv, hid, e, p, he, hp, hmem⟩ := h.exists_outcome hr
    have hhangs := Decl.hangs_of_mem_outcome hmem
    rw [ha] at hhangs
    cases hhangs with
    | self _ hne => exact absurd rfl hne
    | parameter harg hi ho hfile hindex =>
        obtain ⟨-, rfl⟩ := Place.single.inj ho
        obtain rfl := h.charted.program.eq_of_path hf.mem hv hfile
        obtain rfl := CompilationUnit.decl_eq_of_index hf.found he hindex
        refine ⟨_, harg, ?_⟩
        rw [hargument _ harg, ← hi, hid]
  · rintro ⟨arg, harg, rfl⟩
    have hparameter : c.contributes arg.id
        (arg.parameterAt u.path (.single q (decl.overloadSpot u.path))) := by
      rw [hargument arg harg, hf.place]
      refine hf.contributes h (List.mem_cons_of_mem _ (List.mem_cons_of_mem _ ?_))
      exact List.mem_flatMap.mpr ⟨arg, harg, List.mem_cons_self⟩
    refine ⟨_, ?_, hparameter⟩
    rfl

end DeclaresFunction

/-! ### The lists of a function -/

/-- The arguments of a declaration stand in order. -/
theorem Surveyed.pairwise_arguments (h : Surveyed c w) (hu : u ∈ w.program.units)
    (hd : u.decl? d = some decl) :
    ((u.arguments decl).map (·.id)).Pairwise DeclId.Before := by
  have hn := h.charted.program.numbered u hu
  have hchildren := (h.collected u hu).pairwise_children (CompilationUnit.decl?_eq_some hd).2
  have hsublist : ∀ l : List DeclId,
      (((l.filterMap u.decl?).filter (·.kind = .argument)).map (·.id)).Sublist l := by
    intro l
    refine (List.filter_sublist.map _).trans ?_
    induction l with
    | nil => exact List.Sublist.refl _
    | cons e l ih =>
        cases he : u.decl? e with
        | none => simpa [he] using ih.cons e
        | some x => simpa [he, hn.id_eq he] using ih
  exact hchildren.sublist (hsublist _)

section Function

variable (h : Surveyed c w) (hranks : w.graph.RanksSignatures) (hq : c.place f = some q)
  {k : SymbolKind} (hk : q.kind? = some k) (hf : k.isFunctionLike)
include h hranks hq hk hf

theorem Surveyed.map_declarations_overloads :
    (w.graph.overloads f).map w.graph.declarations = (w.graph.declarations f).map ([·]) := by
  have hwell := h.charted.wellFormed
  have hkind : w.graph.Is SymbolKind.isFunctionLike f := ⟨k, (h.charted.kind? hq).trans hk, hf⟩
  refine hranks.overloads.signatures.map_declarations List.filter_sublist
    (hranks.overloads.functions hkind) (fun s hs => ?_) fun d => ⟨fun hd => ?_, ?_⟩
  · have he := hwell.mem_targets_iff.mp (List.mem_filter.mp hs).1
    obtain ⟨spot, hspot, ha⟩ := h.exists_spot (.inl rfl) hq he
    exact ⟨(h.of_spot hspot).1 ha, (h.of_spot hspot).2.2⟩
  · obtain ⟨u, decl, scope, rfl, hdecl⟩ :=
      h.exists_declaresFunction hk hf ((h.charted.declarations hq d).mp hd)
    have ha : (decl.overloadSpot u.path).attachment = .listed .callSignature := rfl
    obtain ⟨s, he, hs⟩ := h.exists_listed (.inl rfl) hq ha (hdecl.contributes_signature h)
    refine ⟨s, List.mem_filter.mpr ⟨hwell.mem_targets_iff.mpr he, ?_⟩, hs⟩
    simpa using ⟨_, hs, hd⟩
  · rintro ⟨s, hs, hd⟩
    obtain ⟨hs, hown⟩ := List.mem_filter.mp hs
    obtain ⟨spot, hspot, -⟩ := h.exists_spot (.inl rfl) hq (hwell.mem_targets_iff.mp hs)
    obtain ⟨e, heq⟩ := (h.of_spot hspot).2.2
    rw [heq, List.mem_singleton] at hd
    simpa [heq, hd] using hown

theorem Surveyed.map_declarations_parameters (hs : s ∈ w.graph.overloads f)
    (hd : d ∈ w.graph.declarations s) : ∃ u ∈ w.program.units, ∃ decl, u.decl? d = some decl ∧
      (w.graph.parameters s).map w.graph.declarations =
        ((u.arguments decl).map (·.id)).map ([·]) := by
  have hwell := h.charted.wellFormed
  obtain ⟨hs, hown⟩ := List.mem_filter.mp hs
  obtain ⟨spot, hspot, ha⟩ := h.exists_spot (.inl rfl) hq (hwell.mem_targets_iff.mp hs)
  obtain ⟨hsignature, -, e, heq⟩ := h.of_spot hspot
  rw [heq, List.mem_singleton] at hd
  subst hd
  have hfd : d ∈ w.graph.declarations f := by simpa [heq] using hown
  obtain ⟨u, decl, scope, rfl, hdecl⟩ :=
    h.exists_declaresFunction hk hf ((h.charted.declarations hq d).mp hfd)
  have hcontributes : c.contributes decl.id (.single q spot) :=
    (h.charted.declarations hspot _).mp (heq ▸ List.mem_singleton_self _)
  obtain rfl := hdecl.eq_overloadSpot h ha hcontributes
  refine ⟨u, hdecl.mem, decl, hdecl.found, ?_⟩
  have hlist : w.graph.parameters s = w.graph.targets s .parameter := by
    simp [SymbolGraph.parameters, listFor, hsignature ha]
  rw [hlist]
  refine hranks.parameters.map_declarations (List.Sublist.refl _)
    (h.pairwise_arguments hdecl.mem hdecl.found) (fun t ht => ?_) fun d => ?_
  · obtain ⟨r, hr, ha⟩ := h.exists_spot (.inr rfl) hspot (hwell.mem_targets_iff.mp ht)
    exact (h.of_spot hr).2.imp_left fun hkind => hkind ha
  · rw [List.mem_map, ← hdecl.contributes_parameter_iff h]
    constructor
    · rintro ⟨r, ha, hr⟩
      obtain ⟨t, he, ht⟩ := h.exists_listed (.inr rfl) hspot ha hr
      exact ⟨t, hwell.mem_targets_iff.mpr he, ht⟩
    · rintro ⟨t, ht, hd⟩
      obtain ⟨r, hr, ha⟩ := h.exists_spot (.inr rfl) hspot (hwell.mem_targets_iff.mp ht)
      exact ⟨r, ha, (h.charted.declarations hr d).mp hd⟩

end Function

/-! ### Main statement -/

/-- The signatures of a function agree with its declarations. -/
structure Overloaded (w : Workspace) (f : SymbolId) : Prop where
  /-- Each declaration has one signature, and the signatures stand in the same order. -/
  signatures : (w.graph.overloads f).map w.graph.declarations =
    (w.graph.declarations f).map ([·])
  /-- Each argument of the declaration has one parameter, and the parameters stand in the same
  order. -/
  parameters : ∀ s ∈ w.graph.overloads f, ∀ d ∈ w.graph.declarations s,
    ∃ u ∈ w.program.units, ∃ decl, u.decl? d = some decl ∧
      (w.graph.parameters s).map w.graph.declarations =
        ((u.arguments decl).map (·.id)).map ([·])
  definitions : ((w.graph.targets f .callSignature).filter w.graph.isDefinition).length ≤ 1
  /-- The definition is listed last. -/
  listed : w.graph.callSignatures f =
    (w.graph.targets f .callSignature).filter (!w.graph.isDefinition ·) ++
      (w.graph.definition? f).toList

/-- Whatever was requested, the signatures of a declared function or method correspond to its
declarations in order, and the parameters of each to the arguments. At most one is a definition, and it
is listed last. -/
theorem Reachable.overloaded (h : w.Reachable)
    (hk : w.graph.kind? f = some .function ∨ w.graph.kind? f = some .method)
    (hd : w.graph.declarations f ≠ []) : w.Overloaded f := by
  obtain ⟨c, hc⟩ := h.exists_surveyed
  have hranks := h.ranksSignatures
  obtain ⟨k, hkind, hf⟩ : w.graph.Is SymbolKind.isFunctionLike f := by
    rcases hk with hk | hk
    · exact ⟨_, hk, rfl⟩
    · exact ⟨_, hk, rfl⟩
  obtain ⟨q, hq⟩ := hc.exists_place hd
  have hqk : q.kind? = some k := (hc.charted.kind? hq).symm.trans hkind
  obtain ⟨d, hmem⟩ := List.exists_mem_of_ne_nil _ hd
  have hdefinitions := hranks.overloads.definitions ⟨k, hkind, hf⟩
    (h.sound.graph.declarable hmem).1
  refine ⟨hc.map_declarations_overloads hranks hq hqk hf, fun s hs d hd =>
    hc.map_declarations_parameters hranks hq hqk hf hs hd, hdefinitions, ?_⟩
  have hlast : (w.graph.targets f .callSignature).filter w.graph.isDefinition =
      (w.graph.definition? f).toList := by
    rw [definition?, listFor, hkind, Option.map_some, Option.getD_some, if_pos hf]
    generalize (w.graph.targets f .callSignature).filter w.graph.isDefinition = l at hdefinitions ⊢
    cases l with
    | nil => rfl
    | cons s l => simpa using hdefinitions
  rw [callSignatures, listFor, hkind, Option.map_some, Option.getD_some, if_pos (by simp [hf]),
    orderedSignatures, hlast]

/-- Three documents that declare one function, with a body in the first one and in the second one.
Then the second one comes again without the body. -/
def mixedOverloads : Workspace := (ofOptions {}).after
  [.setStatements "one.ts" do
      let a ← Build.parameter "a" ∅ none
      let b ← Build.parameter "b" ∅ none
      return [← Build.function "f" ∅ [a] none none, ← Build.function "f" ∅ [b] none (some [])],
    .setStatements "two.ts" do return [← Build.function "f" ∅ [] none (some [])],
    .setStatements "three.ts" do
      let a ← Build.parameter "a" ∅ none
      let b ← Build.parameter "b" ∅ none
      return [← Build.function "f" ∅ [a, b] none none],
    .setStatements "two.ts" do return [← Build.function "f" ∅ [] none none]]

/-- The function lists its declarations from all three documents. -/
theorem overloaded_mixedOverloads : mixedOverloads.Reachable ∧
    mixedOverloads.graph.kind? 8 = some .function ∧
    mixedOverloads.graph.declarations 8 = [⟨0, 1⟩, ⟨0, 3⟩, ⟨2, 1⟩, ⟨3, 1⟩] ∧
    mixedOverloads.Overloaded 8 := by
  have hreach : mixedOverloads.Reachable := ⟨_, _, rfl⟩
  have hkind : mixedOverloads.graph.kind? 8 = some .function := by decide +kernel
  have hdecl : mixedOverloads.graph.declarations 8 = [⟨0, 1⟩, ⟨0, 3⟩, ⟨2, 1⟩, ⟨3, 1⟩] := by
    decide +kernel
  exact ⟨hreach, hkind, hdecl, hreach.overloaded (.inl hkind) (by simp [hdecl])⟩

/-- The signature with the body is the second one, and is listed last. -/
example : mixedOverloads.graph.overloads 8 = [9, 11, 14, 17] ∧
    mixedOverloads.graph.callSignatures 8 = [9, 14, 17, 11] ∧
    (mixedOverloads.graph.parameters 14).map mixedOverloads.graph.declarations =
      [[⟨2, 2⟩], [⟨2, 3⟩]] := by
  decide +kernel

end Workspace

end NameBinding
