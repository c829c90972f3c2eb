import NameBinding.Proofs.Graph.Query
import NameBinding.Proofs.Resolve.Runs

/-! # Looking names up settles

What a name denotes does not depend on what was resolved before, if the aliases on the way stand for
the same symbols at all times. -/

namespace NameBinding

open SymbolGraph ResolveM

namespace Start

variable {b : Start} {s : Scene} {α β ι : Type}

/-! ### Steps that settle -/

/-- The steps of a family all give one answer and report the same, whatever was resolved before. -/
def Settles (b : Start) (opened : ι → List SymbolId) (m : ι → ResolveM α) (Q : α → Prop) : Prop :=
  ∃ answer ds, Q answer ∧ ∀ i s, b.Valid (opened i) s →
    ∃ s', s.Runs (m i) answer s' ∧ b.Valid (opened i) s' ∧ b.Leads (reports ds) s s'

theorem Leads.nil (b : Start) (s : Scene) : b.Leads (reports []) s s :=
  .refl fun _ ⟨_, hd, _⟩ => absurd hd List.not_mem_nil

namespace Settles

variable {opened : ι → List SymbolId} {Q : α → Prop} {Q' : β → Prop}

theorem pure {a : α} (h : Q a) : b.Settles opened (fun _ => Pure.pure a) Q :=
  ⟨a, [], h, fun _ s hs => ⟨s, Scene.Runs.pure s a, hs, Leads.nil b s⟩⟩

theorem bind {m : ι → ResolveM α} {f : ι → α → ResolveM β} (h : b.Settles opened m Q)
    (hf : ∀ a, Q a → b.Settles opened (fun i => f i a) Q') :
    b.Settles opened (fun i => m i >>= f i) Q' := by
  obtain ⟨a, ds, ha, h⟩ := h
  obtain ⟨c, ds', hc, hf⟩ := hf a ha
  refine ⟨c, ds ++ ds', hc, fun i s hs => ?_⟩
  obtain ⟨s', hr, hs', hl⟩ := h i s hs
  obtain ⟨s'', hr', hs'', hl'⟩ := hf i s' hs'
  exact ⟨s'', hr.bind hr', hs'', (hl.trans hl').congr fun _ => mem_reports_append⟩

/-- A step that reads of the graph only what is the same at all times. -/
theorem graph_bind {f : ι → SymbolGraph → ResolveM β}
    (hread : ∀ i s, b.Valid (opened i) s → f i s.graph = f i b.graph)
    (h : b.Settles opened (fun i => f i b.graph) Q') :
    b.Settles opened (fun i => ResolveM.graph >>= f i) Q' := by
  obtain ⟨a, ds, ha, h⟩ := h
  refine ⟨a, ds, ha, fun i s hs => ?_⟩
  obtain ⟨s', hr, hs', hl⟩ := h i s hs
  exact ⟨s', .graph_bind ((hread i s hs).symm ▸ hr), hs', hl⟩

theorem report (d : Diagnostic) : b.Settles opened (fun _ => ResolveM.report d) fun _ => True :=
  ⟨(), [d], True.intro, fun _ _ hs => hs.report d⟩

theorem missing (d : Diagnostic) {a : α} (h : Q a) :
    b.Settles opened (fun _ => do ResolveM.report d; return a) Q :=
  (report d).bind fun _ _ => pure h

theorem findSomeM? {f : ι → α → ResolveM (Option β)} {Q : Option β → Prop} (hnone : Q none) :
    ∀ (as : List α), (∀ a ∈ as, b.Settles opened (fun i => f i a) Q) →
      b.Settles opened (fun i => as.findSomeM? (f i)) Q
  | [], _ => pure hnone
  | a :: as, h => (h a List.mem_cons_self).bind fun c hc => by
      cases c with
      | none => exact findSomeM? hnone as fun a ha => h a (List.mem_cons_of_mem _ ha)
      | some c => exact pure hc

end Settles

/-! ### What is the same at all times -/

/-- A given symbol that has an instance side if it is a class. -/
structure Usable (b : Start) (x : SymbolId) : Prop where
  lt_size : x < b.size
  side : b.graph.kind? x = some .classType → ∃ inst, b.graph.instanceType? x = some inst

theorem Usable.of_kind {x : SymbolId} {kind : SymbolKind} (hk : b.graph.kind? x = some kind)
    (hne : kind ≠ .classType) : b.Usable x where
  lt_size := lt_size_of_kind? hk
  side h := absurd (Option.some.inj (hk.symm.trans h)) hne

/-- Classes that are declared have an instance side. -/
theorem Usable.of_declared {x : SymbolId} (h : b.graph.declarations x ≠ []) : b.Usable x := by
  obtain ⟨d, hd⟩ := List.exists_mem_of_ne_nil _ h
  refine ⟨lt_size_of_mem_declarations hd, fun hk => ?_⟩
  obtain ⟨inst, he⟩ := b.sound.graph.hasSide hk hd
  exact exists_instanceType? b.sound.graph.toMirrored he

theorem usable_error (b : Start) : b.Usable WellKnown.error := .of_kind b.error (by decide)

theorem exists_site (b : Start) {x : SymbolId} {d : DeclId} (hd : d ∈ b.graph.declarations x) :
    ∃ site, b.setting.site? d = some site := by
  obtain ⟨decl, hdecl⟩ := Option.isSome_iff_exists.mp (b.sound.known hd)
  obtain ⟨u, hu, hdecl⟩ := Option.bind_eq_some_iff.mp hdecl
  exact ⟨⟨decl, u.tree, u.path⟩, by rw [Setting.site?, hu, Option.bind_some, hdecl]; rfl⟩

namespace Valid

variable {opened : List SymbolId} {x : SymbolId}

theorem admits_eq (h : b.Valid opened s) (hx : x < b.size) (name : String) (meaning : Meaning) :
    s.graph.admits name meaning x = b.graph.admits name meaning x :=
  admits_congr (h.resolves.label? hx) name meaning

theorem filter_admits (h : b.Valid opened s) {xs : List SymbolId} (hxs : ∀ x ∈ xs, x < b.size)
    (name : String) (meaning : Meaning) :
    xs.filter (s.graph.admits name meaning) = xs.filter (b.graph.admits name meaning) :=
  List.filter_congr fun x hx => h.admits_eq (hxs x hx) name meaning

theorem find?_admits (h : b.Valid opened s) {xs : List SymbolId} (hxs : ∀ x ∈ xs, x < b.size)
    (name : String) (meaning : Meaning) :
    xs.find? (s.graph.admits name meaning) = xs.find? (b.graph.admits name meaning) := by
  rw [← List.head?_filter, ← List.head?_filter, h.filter_admits hxs]

theorem publicMembers_eq (h : b.Valid opened s) (hx : x < b.size) :
    s.graph.publicMembers x = b.graph.publicMembers x :=
  h.resolves.publicMembers_eq b.sound.graph.toWellFormed hx

theorem scopeChildren_eq (h : b.Valid opened s) (hx : x < b.size) :
    s.graph.scopeChildren x = b.graph.scopeChildren x :=
  h.resolves.scopeChildren_eq b.sound.graph.toWellFormed hx

end Valid

/-- The place where a symbol is declared first. -/
theorem settles_firstSite {opened : ι → List SymbolId} {x : SymbolId} (hx : x < b.size) :
    b.Settles opened (fun _ => firstSite b.setting x) (· = b.setting.firstSite? b.graph x) := by
  refine ⟨_, [], rfl, fun i s hs => ⟨s, ?_, hs, Leads.nil b s⟩⟩
  have hdecls : s.Runs (declarations x) (b.graph.declarations x) s :=
    hs.resolves.declarations x ▸ Scene.Runs.declarations (hs.lt_size hx)
  refine hdecls.bind ?_
  rw [Setting.firstSite?]
  cases hd : (b.graph.declarations x).head? with
  | none => exact .pure s none
  | some d =>
      obtain ⟨site, hsite⟩ := b.exists_site (List.mem_of_head? hd)
      rw [Option.bind_some, hsite]
      exact (Scene.Runs.site hsite).bind (.pure s (some site))

/-! ### Looking names up -/

theorem lt_size_of_mem_scopeChildren (b : Start) {x m : SymbolId}
    (hm : m ∈ b.graph.scopeChildren x) : m < b.size := by
  have hchild : ∀ {y}, m ∈ b.graph.children y → m < b.size := fun hm =>
    (b.sound.graph.lt_size (b.sound.graph.mem_sources_iff.mp hm)).1
  rcases List.mem_append.mp hm with hm | hm
  · exact hchild hm
  · cases hinst : b.graph.instanceType? x with
    | none => simp [hinst] at hm
    | some y =>
        rw [hinst] at hm
        exact hchild hm

theorem lt_size_of_mem_lexicalScopes (b : Start) {depth : Nat} {enclosing : Option DeclId}
    {x : SymbolId} (hx : x ∈ b.setting.program.lexicalScopes depth enclosing) : x < b.size := by
  have hsymbols : x ∈ b.setting.program.enclosingSymbols depth enclosing := List.mem_eraseDups.mp hx
  clear hx
  induction depth generalizing enclosing with
  | zero => simp [Program.enclosingSymbols] at hsymbols
  | succ depth ih =>
      cases enclosing with
      | none => simp [Program.enclosingSymbols] at hsymbols
      | some d =>
          rw [Program.enclosingSymbols] at hsymbols
          cases hd : b.setting.program.decl? d with
          | none => simp [hd] at hsymbols
          | some decl =>
              rw [hd] at hsymbols
              rcases List.mem_append.mp hsymbols with hx | hx
              · exact lt_size_of_mem_declarations
                  (b.sound.listed hd (Option.mem_toList.mp hx))
              · exact ih hx

/-- A declared symbol whose name is among the segments. -/
structure Found (b : Start) (segments : List String) (x : SymbolId) : Prop where
  lt_size : x < b.size
  declared : b.graph.declarations x ≠ []
  name_mem : b.graph.name x ∈ segments

theorem Found.usable {segments : List String} {x : SymbolId} (h : b.Found segments x) :
    b.Usable x :=
  .of_declared h.declared

theorem Found.of_admits {segments : List String} {segment : String} {meaning : Meaning}
    {x : SymbolId} (h : b.graph.admits segment meaning x) (hs : segment ∈ segments) :
    b.Found segments x := by
  obtain ⟨hname, hdecl⟩ := SymbolGraph.of_admits h
  obtain ⟨d, hd⟩ := List.exists_mem_of_ne_nil _ hdecl
  exact ⟨lt_size_of_mem_declarations hd, hdecl, hname ▸ hs⟩

section Search

variable {opened : ι → List SymbolId} {aliasTarget : ι → SymbolId → ResolveM SymbolId}
  {segments : List String}

/-- What is found, if something is found. -/
def FoundOption (b : Start) (segments : List String) (found : Option SymbolId) : Prop :=
  ∀ x, found = some x → b.Found segments x

theorem foundOption_none : b.FoundOption segments none := fun _ h => absurd h (by simp)

theorem foundOption_some {x : SymbolId} (h : b.Found segments x) :
    b.FoundOption segments (some x) := by
  rintro _ ⟨⟩
  exact h

/-- The aliases that are met settle. -/
abbrev AliasesSettle (b : Start) (opened : ι → List SymbolId)
    (aliasTarget : ι → SymbolId → ResolveM SymbolId) (segments : List String) : Prop :=
  ∀ c, b.Found segments c → b.graph.kind? c = some .alias →
    b.Settles opened (fun i => aliasTarget i c) b.Usable

variable (halias : b.AliasesSettle opened aliasTarget segments)

include halias

/-- By induction on the segments that are left. -/
theorem settles_walkMembers (meaning : Meaning) {current : SymbolId} {rest : List String}
    (hcurrent : b.Found segments current) (hrest : ∀ segment ∈ rest, segment ∈ segments) :
    b.Settles opened (fun i => walkMembers (aliasTarget i) meaning current rest)
      (b.FoundOption segments) := by
  induction rest generalizing current with
  | nil =>
      simp only [walkMembers]
      exact .pure (foundOption_some hcurrent)
  | cons segment rest ih =>
      have hgo : ∀ holder, b.Usable holder → b.Settles opened
          (fun i => walkOn (aliasTarget i) meaning segment rest holder) (b.FoundOption segments) := by
        intro holder hholder
        simp only [walkOn]
        refine .graph_bind (fun i s hs => ?_) ?_
        · rw [hs.publicMembers_eq hholder.lt_size,
            hs.find?_admits fun m hm => lt_size_of_mem_publicMembers b.sound.graph.toMirrored hm]
        · split
          · next next hnext =>
            have hadmits := List.find?_some hnext
            exact ih (.of_admits hadmits (hrest segment List.mem_cons_self)) fun x hx =>
              hrest x (List.mem_cons_of_mem _ hx)
          · exact .pure foundOption_none
      simp only [walkMembers_cons]
      refine .graph_bind (fun i s hs => ?_) ?_
      · rw [hs.kind?_eq hcurrent.lt_size]
      · split
        · next hk => exact (halias current hcurrent (beq_iff_eq.mp hk)).bind hgo
        · exact hgo current hcurrent.usable

theorem settles_lookupAmong {candidates : List SymbolId} (hlt : ∀ x ∈ candidates, x < b.size)
    (meaning : Meaning) :
    b.Settles opened (fun i => lookupAmong (aliasTarget i) candidates segments meaning)
      (b.FoundOption segments) := by
  simp only [lookupAmong]
  split
  · exact .pure foundOption_none
  · next first rest =>
    refine .graph_bind (fun i s hs => ?_) ?_
    · rw [hs.filter_admits hlt]
    · refine .findSomeM? foundOption_none _ fun x hx => ?_
      obtain ⟨-, hadmits⟩ := List.mem_filter.mp hx
      exact settles_walkMembers halias meaning (.of_admits hadmits List.mem_cons_self) fun _ hx =>
        List.mem_cons_of_mem _ hx

theorem settles_lookupPath {context : List SymbolId} (hcontext : ∀ x ∈ context, x < b.size)
    (enclosing : Option DeclId) (meaning : Meaning) :
    b.Settles opened
      (fun i => lookupPath (aliasTarget i) b.setting segments context enclosing meaning)
      (b.FoundOption segments) := by
  have hfrom : ∀ anchor < b.size, b.Settles opened
      (fun i => lookupFrom (aliasTarget i) segments meaning anchor) (b.FoundOption segments) := by
    intro anchor hanchor
    simp only [lookupFrom]
    refine .graph_bind (fun i s hs => ?_) ?_
    · rw [hs.scopeChildren_eq hanchor]
    · exact settles_lookupAmong halias (fun _ hx => b.lt_size_of_mem_scopeChildren hx) meaning
  simp only [lookupPath]
  split
  · exact .pure foundOption_none
  · refine .bind (.findSomeM? foundOption_none _ fun anchor ha => hfrom anchor ?_)
      fun found hfound => ?_
    · exact (List.mem_append.mp ha).elim (hcontext anchor) b.lt_size_of_mem_lexicalScopes
    · cases found with
      | some found => exact .pure hfound
      | none => exact settles_lookupAmong halias (fun _ hx => b.global hx) meaning

end Search

end Start

end NameBinding
