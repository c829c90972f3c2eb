import NameBinding.Proofs.Graph.Heritage
import NameBinding.Proofs.Place.Stages
import NameBinding.Proofs.Workspace.Survey

/-! # Bases do not come round in few steps

A base is linked only if it does not lead back to its heir, so what leads back is out of sight of
the search. Documents that come and go take edges to bases away, and never add some. -/

namespace NameBinding

open SymbolGraph

namespace SymbolGraph

variable {setting : Setting} {g₀ g g' : SymbolGraph} {n : Nat}

/-- Heirs list their bases. -/
def NamesHeirs (setting : Setting) (g : SymbolGraph) : Prop :=
  ∀ {x}, setting.IsHeir g x → g.kind? x = some .instanceType ∨ g.kind? x = some .interface

/-! ### Resolving -/

theorem Change.kind? (h : Change setting n g g') {x : SymbolId} (hx : x < g.size) :
    g'.kind? x = g.kind? x := kind?_congr (h.label? hx)

/-- By cases on the change. Only an edge to a base makes a difference. -/
theorem Change.lineal (h : Change setting n g g') (hg : g.WellFormed)
    (hheirs : g.NamesHeirs setting) (hon : setting.options.detectHeritageCycles)
    (hl : g.Lineal setting.options.maxHeritageDepth) :
    g'.Lineal setting.options.maxHeritageDepth := by
  have hmono : (∀ {x : Edge}, g'.hasEdge x → x.kind = .extends → g.hasEdge x) →
      g'.Lineal setting.options.maxHeritageDepth := fun hsub =>
    hl.mono fun hx hk => ⟨hsub hx hk, h.kind? (hg.lt_size (hsub hx hk)).1⟩
  cases h with
  | mark id => exact hmono fun hx _ => by simpa [SymbolGraph.hasEdge] using hx
  | make name kind flags => exact hmono fun hx _ => by simpa [SymbolGraph.hasEdge] using hx
  | point e hr hs ht hbase =>
      have hplain := EdgeKind.not_isMembership_of_isResolution hr
      by_cases hk : e.kind = .extends
      · refine hl.addBase hg.toMirrored (e := e)
          (fun hx _ => (hasEdge_addEdge_of_plain hs ht hplain).mp hx)
          (fun x => kind?_congr (label?_addEdge g e x)) ?_ ((hbase hk).checked hon)
        exact hheirs (hbase hk).heir
      · refine hmono fun {x} hx hxk => ?_
        rcases (hasEdge_addEdge_of_plain hs ht hplain).mp hx with hold | rfl
        · exact hold
        · exact absurd hxk hk
  | drop e hk => exact hmono fun hx _ => (hg.hasEdge_removeEdge.mp hx).1
  | array e hk hs ht =>
      refine hmono fun {x} hx hxk => (hasEdge_addEdge_of_ne hs ht ?_ ?_).mp hx <;> simp [hxk, hk]
  | part e hk hs ht =>
      refine hmono fun {x} hx hxk => (hasEdge_addEdge_of_ne hs ht ?_ ?_).mp hx
      · rintro heq
        simp [← heq, hxk, EdgeKind.isPart] at hk
      · simp [hxk]

/-- Who is an heir does not change while names are resolved. -/
theorem Resolves.namesHeirs (h : Resolves setting g₀ g) (h₀ : g₀.WellFormed)
    (hheirs : g₀.NamesHeirs setting) : g.NamesHeirs setting := by
  intro x hx
  have hkind := hheirs ((Resolves.isHeir_iff h h₀).mp hx)
  have hlt : x < g₀.size := by
    by_contra hge
    simp [SymbolGraph.kind?, (get?_eq_none_iff g₀ x).mpr (Nat.not_lt.mp hge)] at hkind
  rwa [kind?_congr (Resolves.label? h hlt)]

/-- By induction on the changes. -/
theorem Resolves.lineal (h : Resolves setting g₀ g) (h₀ : g₀.WellFormed)
    (hheirs : g₀.NamesHeirs setting) (hon : setting.options.detectHeritageCycles)
    (hl : g₀.Lineal setting.options.maxHeritageDepth) :
    g.Lineal setting.options.maxHeritageDepth := by
  induction h with
  | refl => exact hl
  | @tail g g' h hc ih =>
      exact hc.lineal (Resolves.wellFormed h h₀) (Resolves.namesHeirs h h₀ hheirs) hon ih

/-! ### Who has bases -/

/-- Only symbols that list their bases have some, also when cycles are not looked for. -/
def BasesListed (g : SymbolGraph) : Prop :=
  ∀ e : Edge, g.hasEdge e → e.kind = .extends →
    g.kind? e.source = some .instanceType ∨ g.kind? e.source = some .interface

theorem BasesListed.mono (h : g.BasesListed) (hsub : ∀ {e : Edge}, g'.hasEdge e →
    e.kind = .extends → g.hasEdge e ∧ g'.kind? e.source = g.kind? e.source) : g'.BasesListed := by
  intro e he hk
  obtain ⟨hold, hkind⟩ := hsub he hk
  rw [hkind]
  exact h e hold hk

/-- A new edge to a base leaves an heir. -/
theorem Change.isHeir_of_extends (h : Change setting n g g') (hg : g.WellFormed) {x : Edge}
    (hx : g'.hasEdge x) (hk : x.kind = .extends) :
    g.hasEdge x ∨ (x.source < g.size ∧ setting.IsHeir g x.source) := by
  cases h with
  | mark id => exact .inl (by simpa [SymbolGraph.hasEdge] using hx)
  | make name kind flags => exact .inl (by simpa [SymbolGraph.hasEdge] using hx)
  | point e hr hs ht hbase =>
      rcases (hasEdge_addEdge_of_plain hs ht (EdgeKind.not_isMembership_of_isResolution hr)).mp hx
        with hold | rfl
      · exact .inl hold
      · exact .inr ⟨hs, (hbase hk).heir⟩
  | drop e _ => exact .inl (hg.hasEdge_removeEdge.mp hx).1
  | array e harray hs ht =>
      exact .inl ((hasEdge_addEdge_of_ne hs ht (by simp [hk, harray]) (by simp [hk])).mp hx)
  | part e hpart hs ht =>
      refine .inl ((hasEdge_addEdge_of_ne hs ht ?_ (by simp [hk])).mp hx)
      rintro heq
      simp [← heq, hk, EdgeKind.isPart] at hpart

theorem Change.basesListed (h : Change setting n g g') (hg : g.WellFormed)
    (hheirs : g.NamesHeirs setting) (hl : g.BasesListed) : g'.BasesListed := by
  intro e he hk
  rcases h.isHeir_of_extends hg he hk with hold | ⟨hlt, hheir⟩
  · rw [h.kind? (hg.lt_size hold).1]
    exact hl e hold hk
  · rw [h.kind? hlt]
    exact hheirs hheir

theorem Resolves.basesListed (h : Resolves setting g₀ g) (h₀ : g₀.WellFormed)
    (hheirs : g₀.NamesHeirs setting) (hl : g₀.BasesListed) : g.BasesListed := by
  induction h with
  | refl => exact hl
  | @tail g g' h hc ih =>
      exact hc.basesListed (Resolves.wellFormed h h₀) (Resolves.namesHeirs h h₀ hheirs) ih

end SymbolGraph

/-! ### Heirs are types -/

namespace CompilationUnit

variable {u : CompilationUnit} {d : Decl} {q : Place} {i : InterfaceDecl}

/-- Declarations of interfaces contribute to interfaces only. -/
theorem kind?_of_interface (hn : u.Numbered) (hr : u.ReadsInterfaces) (hd : u.decl? d.id = some d)
    (hi : u.tree.interfaceDecl? d.node = some i) (hq : (d.id.index, q) ∈ u.places) :
    q.kind? = some .interface := by
  have hkind := hr _ d (decl?_eq_some hd).2 (by simp [hi])
  have hk : d.kind ≠ .argument := by
    rcases hkind with hk | hk <;> simp [hk]
  obtain ⟨scope, -, hplace⟩ := symbolAt_of_mem_places hn hd hk hq
  rcases hkind with hk | hk
  · rcases hplace with hat | ⟨kind, hsecond, -⟩
    · rw [Decl.kind?_symbolAt hat, Decl.symbolKind?, hk]
    · simp [Decl.secondKind?, hk] at hsecond
  · rcases hplace with hat | ⟨kind, hsecond, -⟩
    · simp [Decl.symbolAt?, hk] at hat
    · simp [Decl.secondKind?, hk] at hsecond

end CompilationUnit

namespace Workspace

variable {c c' : Chart} {w w' : Workspace} {u : CompilationUnit}

theorem IsCollected.readsInterfaces {limit : Nat} (h : IsCollected limit u) : u.ReadsInterfaces :=
  (CompilationUnit.sound_collect limit u.id u.path u.tree u.root).interfaces.of_text h.symm

theorem Surveyed.namesHeirs (h : Surveyed c w) (hs : w.Sound) : w.graph.NamesHeirs w.setting := by
  rintro x (⟨cls, hside⟩ | ⟨d, hd, u, decl, hu, hdecl, i, hi⟩)
  · exact .inl (hs.graph.isSide hside).2.1
  · obtain ⟨q, hq⟩ := h.exists_place (List.ne_nil_of_mem hd)
    obtain ⟨v, hv, hid, hplace⟩ := h.contributes.mp ((h.charted.declarations hq d).mp hd)
    have hmem : u ∈ w.program.units := List.mem_of_find?_eq_some hu
    have hunit : u.id = d.unit := by simpa using List.find?_some hu
    obtain rfl := h.charted.program.eq_of_id hv hmem (hid.trans hunit.symm)
    have hn := h.charted.program.numbered v hmem
    obtain rfl := hn.id_eq hdecl
    right
    rw [h.charted.kind? hq]
    exact CompilationUnit.kind?_of_interface hn (h.collected v hmem).readsInterfaces hdecl hi hplace

/-! ### Requests -/

theorem lineal_ofOptions (options : Options) (depth : Nat) :
    (ofOptions options).graph.Lineal depth where
  heir he := absurd he (not_hasEdge_ofOptions options _)
  long hc := by
    cases hc with
    | cons hab _ => exact absurd hab (not_hasEdge_ofOptions options _)

theorem Leads.lineal {documents : List (String × DocTree × NodeRef)} {depth : Nat}
    (h : Leads c w documents c' w') (hl : w.graph.Lineal depth) : w'.graph.Lineal depth :=
  hl.mono fun {e} he hk => by
    have hderives : Derives w'.graph e :=
      .inl (by simp [hk, EdgeKind.isStructural, EdgeKind.isResolution])
    obtain ⟨hold, hsame⟩ := h.kept he hderives
    exact ⟨hold, (hsame e.source (.inl rfl)).1⟩

/-- By induction on the requests. Only demands make edges to bases, and they check them. -/
theorem Reachable.lineal (h : Reachable w) (hon : w.options.detectHeritageCycles) :
    w.graph.Lineal w.options.maxHeritageDepth := by
  obtain ⟨options, requests, rfl⟩ := h
  suffices hall : ((ofOptions options).after requests).options = options ∧
      (options.detectHeritageCycles →
        ((ofOptions options).after requests).graph.Lineal options.maxHeritageDepth) by
    rw [hall.1] at hon ⊢
    exact hall.2 hon
  clear hon
  induction requests using List.reverseRecOn with
  | nil => exact ⟨rfl, fun _ => lineal_ofOptions options _⟩
  | append_singleton requests request ih =>
      have hreach : Reachable ((ofOptions options).after requests) := ⟨options, requests, rfl⟩
      obtain ⟨c, hc⟩ := hreach.exists_surveyed
      have hs := hreach.sound
      rw [after_append]
      cases hr : request.isEdit with
      | true =>
          obtain ⟨c', hl⟩ := hc.apply_edit hs hr
          exact ⟨hl.options.trans ih.1, fun hon => hl.lineal (ih.2 hon)⟩
      | false =>
          cases request with
          | demand d =>
              obtain ⟨g, diagnostics, hg, heq⟩ := exists_apply_demand hc.charted.wellFormed d
              have heq' : ((ofOptions options).after requests).after [.demand d] = _ := heq
              rw [heq']
              refine ⟨ih.1, fun hon => ?_⟩
              have hlineal := hg.lineal hc.charted.wellFormed (hc.namesHeirs hs)
              rw [setting, ih.1] at hlineal
              exact hlineal hon (ih.2 hon)
          | _ => exact absurd hr (by simp [Request.isEdit])

theorem Leads.basesListed {documents : List (String × DocTree × NodeRef)}
    (h : Leads c w documents c' w') (hl : w.graph.BasesListed) : w'.graph.BasesListed :=
  hl.mono fun {e} he hk => by
    have hderives : Derives w'.graph e :=
      .inl (by simp [hk, EdgeKind.isStructural, EdgeKind.isResolution])
    obtain ⟨hold, hsame⟩ := h.kept he hderives
    exact ⟨hold, (hsame e.source (.inl rfl)).1⟩

/-- By induction on the requests. -/
theorem Reachable.basesListed (h : Reachable w) : w.graph.BasesListed := by
  obtain ⟨options, requests, rfl⟩ := h
  induction requests using List.reverseRecOn with
  | nil => exact fun _ he => absurd he (not_hasEdge_ofOptions options _)
  | append_singleton requests request ih =>
      have hreach : Reachable ((ofOptions options).after requests) := ⟨options, requests, rfl⟩
      obtain ⟨c, hc⟩ := hreach.exists_surveyed
      rw [after_append]
      cases hr : request.isEdit with
      | true =>
          obtain ⟨c', hl⟩ := hc.apply_edit hreach.sound hr
          exact hl.basesListed ih
      | false =>
          cases request with
          | demand d =>
              obtain ⟨g, diagnostics, hg, heq⟩ := exists_apply_demand hc.charted.wellFormed d
              have heq' : ((ofOptions options).after requests).after [.demand d] = _ := heq
              rw [heq']
              exact hg.basesListed hc.charted.wellFormed (hc.namesHeirs hreach.sound) ih
          | _ => exact absurd hr (by simp [Request.isEdit])

/-- Whatever was requested, a cycle of bases is longer than the search for cycles is deep, and there
is none among few types. -/
theorem Reachable.baseChain_long (h : Reachable w) (hon : w.options.detectHeritageCycles) :
    (∀ n a, 0 < n → w.graph.BaseChain n a a → w.options.maxHeritageDepth + 2 ≤ n) ∧
      (w.graph.heirs.length ≤ w.options.maxHeritageDepth + 1 →
        ∀ n a, 0 < n → ¬w.graph.BaseChain n a a) := by
  have hl := h.lineal hon
  have hg := h.sound.graph.toMirrored
  constructor
  · intro n a hn hc
    obtain ⟨m, rfl⟩ := Nat.exists_eq_add_of_lt hn
    rw [Nat.zero_add] at hc ⊢
    exact hl.long hc
  · intro hheirs n a hn
    obtain ⟨m, rfl⟩ := Nat.exists_eq_add_of_lt hn
    rw [Nat.zero_add]
    exact hl.not_baseChain hg hheirs

/-- Two interfaces that name each other as a base. Both are resolved, and the second one again after
its document came anew. -/
def mutualBases : Workspace := (ofOptions {}).after
  [.setStatements "one.ts" do return [← Build.interfaceDecl "I" ∅ [← Build.typeReference "J"] []],
    .setStatements "two.ts" do return [← Build.interfaceDecl "J" ∅ [← Build.typeReference "I"] []],
    .demand (.symbol 8), .demand (.symbol 9),
    .setStatements "two.ts" do return [← Build.interfaceDecl "J" ∅ [← Build.typeReference "I"] []],
    .demand (.symbol 10)]

theorem baseChain_long_mutualBases :
    mutualBases.Reachable ∧ mutualBases.options.detectHeritageCycles ∧
      (∀ n a, 0 < n → mutualBases.graph.BaseChain n a a →
        mutualBases.options.maxHeritageDepth + 2 ≤ n) ∧
      (mutualBases.graph.heirs.length ≤ mutualBases.options.maxHeritageDepth + 1 →
        ∀ n a, 0 < n → ¬mutualBases.graph.BaseChain n a a) :=
  have hr : mutualBases.Reachable := ⟨_, _, rfl⟩
  have hon : mutualBases.options.detectHeritageCycles := by decide +kernel
  ⟨hr, hon, hr.baseChain_long hon⟩

/-- Only one of the two has a base. -/
example : mutualBases.graph.heirs.map (fun a => (a, mutualBases.graph.targets a .extends)) =
    [(10, [8])] := by
  decide +kernel

end Workspace

end NameBinding
