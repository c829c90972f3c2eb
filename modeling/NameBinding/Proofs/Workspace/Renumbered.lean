import Mathlib.Data.Set.Function
import NameBinding.Proofs.Workspace.Shape

/-! # Shapes of renumbered snapshots

The lines of a shape are sorted, and so are the edges in each line, and a line names the kind of a
target in place of its position.

Main statement: snapshots whose symbols have other positions, and stand in another order with their
edges in another order, have the same shape. -/

namespace NameBinding

open scoped List

/-! ### Other positions, another order -/

namespace SymbolView

/-- The symbol with other positions in it. -/
def renumber (f : SymbolId → SymbolId) (v : SymbolView) : SymbolView where
  __ := v
  id := f v.id
  edges := v.edges.map fun e => { e with target := f e.target }

/-- The same symbol, with its edges in any order. -/
structure Reorders (v v' : SymbolView) : Prop where
  rest : { v' with edges := v.edges } = v
  edges : v.edges.Perm v'.edges

end SymbolView

namespace Snapshot

variable {s s' : Snapshot} {f : SymbolId → SymbolId} {v v' : SymbolView} {id : SymbolId}

/-- The positions of the symbols and those that they point at. -/
def positions (s : Snapshot) : List SymbolId :=
  s.symbols.flatMap fun v => v.id :: v.edges.map (·.target)

/-- The second snapshot has the symbols of the first one with other positions, in any order and each
with its edges in any order. -/
def Renumbers (f : SymbolId → SymbolId) (s s' : Snapshot) : Prop :=
  ∃ views, (s.symbols.map (SymbolView.renumber f)).Perm views ∧
    List.Forall₂ SymbolView.Reorders views s'.symbols

theorem id_mem_positions (h : id ∈ s.symbols.map (·.id)) : id ∈ s.positions := by
  obtain ⟨v, hv, rfl⟩ := List.mem_map.mp h
  exact List.mem_flatMap.mpr ⟨v, hv, List.mem_cons_self⟩

theorem target_mem_positions (hv : v ∈ s.symbols) {e : EdgeView} (he : e ∈ v.edges) :
    e.target ∈ s.positions :=
  List.mem_flatMap.mpr ⟨v, hv, List.mem_cons_of_mem _ (List.mem_map_of_mem he)⟩

/-- Where no two symbols have one position, it does not matter which of them counts. -/
theorem kindOf?_eq_some_iff (hs : (s.symbols.map (·.id)).Nodup) {kind : SymbolKind} :
    s.kindOf? id = some kind ↔ (id, kind) ∈ s.symbols.map fun v => (v.id, v.kind) := by
  rw [kindOf?, Option.map_eq_some_iff, List.mem_map]
  constructor
  · rintro ⟨v, hfind, rfl⟩
    have hid : v.id = id := by simpa using List.find?_some hfind
    exact ⟨v, List.mem_reverse.mp (List.mem_of_find?_eq_some hfind), by rw [hid]⟩
  · rintro ⟨v, hv, hpair⟩
    obtain ⟨rfl, rfl⟩ := Prod.ext_iff.mp hpair
    have hfound : (s.symbols.reverse.find? fun u => u.id == v.id).isSome :=
      List.find?_isSome.mpr ⟨v, List.mem_reverse.mpr hv, beq_self_eq_true _⟩
    obtain ⟨u, hfind⟩ := Option.isSome_iff_exists.mp hfound
    have hid : u.id = v.id := by simpa using List.find?_some hfind
    have hu := List.mem_reverse.mp (List.mem_of_find?_eq_some hfind)
    exact ⟨u, hfind, congrArg SymbolView.kind (List.inj_on_of_nodup_map hs hu hv hid)⟩

/-- A line does not say in which order the edges stand. -/
theorem symbolLine_reorders (s : Snapshot) (h : v.Reorders v') :
    s.symbolLine v' = s.symbolLine v := by
  have hedges : sortLines (v'.edges.map s.edgeLine) = sortLines (v.edges.map s.edgeLine) :=
    sortLines_eq_iff.mpr (h.edges.map _).symm
  rw [symbolLine, hedges, ← h.rest]
  rfl

namespace Renumbers

variable (h : s.Renumbers f s')

include h

/-- Positions and kinds are paired as before, in another order. -/
theorem perm_pairs : (s'.symbols.map fun v => (v.id, v.kind)).Perm
    ((s.symbols.map fun v => (v.id, v.kind)).map fun p => (f p.1, p.2)) := by
  obtain ⟨views, hperm, hviews⟩ := h
  have hsame : views.map (fun v => (v.id, v.kind)) = s'.symbols.map fun v => (v.id, v.kind) := by
    refine List.forall₂_eq_eq_eq ▸ List.forall₂_map_left_iff.mpr
      (List.forall₂_map_right_iff.mpr (hviews.imp fun v v' hv => ?_))
    rw [← hv.rest]
  rw [← hsame]
  refine (hperm.map fun v => (v.id, v.kind)).symm.trans (List.Perm.of_eq ?_)
  rw [List.map_map, List.map_map]
  rfl

variable (hs : (s.symbols.map (·.id)).Nodup) (hf : Set.InjOn f {id | id ∈ s.positions})

include hs hf

theorem nodup_ids : (s'.symbols.map (·.id)).Nodup := by
  have hids : (s'.symbols.map (·.id)).Perm ((s.symbols.map (·.id)).map f) := by
    have hfirst := h.perm_pairs.map Prod.fst
    rw [List.map_map, List.map_map, List.map_map] at hfirst
    rw [List.map_map]
    exact hfirst
  exact hids.nodup_iff.mpr (List.Nodup.map_on
    (fun x hx y hy heq => hf (id_mem_positions hx) (id_mem_positions hy) heq) hs)

/-- What is said about a target does not depend on its position, also if no symbol has it. -/
theorem kindOf?_eq (hid : id ∈ s.positions) : s'.kindOf? (f id) = s.kindOf? id := by
  refine Option.ext fun kind => ?_
  rw [kindOf?_eq_some_iff (h.nodup_ids hs hf), kindOf?_eq_some_iff hs, h.perm_pairs.mem_iff,
    List.mem_map]
  constructor
  · rintro ⟨⟨id', kind'⟩, hpair, heq⟩
    obtain ⟨hid', rfl⟩ := Prod.ext_iff.mp heq
    obtain ⟨v, hv, hpair'⟩ := List.mem_map.mp hpair
    obtain ⟨rfl, -⟩ := Prod.ext_iff.mp hpair'
    exact hf (id_mem_positions (List.mem_map_of_mem hv)) hid hid' ▸ hpair
  · exact fun hpair => ⟨(id, kind), hpair, rfl⟩

theorem symbolLine_eq (hv : v ∈ s.symbols) :
    s'.symbolLine (v.renumber f) = s.symbolLine v := by
  have hedges : (v.renumber f).edges.map s'.edgeLine = v.edges.map s.edgeLine := by
    rw [SymbolView.renumber, List.map_map]
    refine List.map_congr_left fun e he => ?_
    rw [Function.comp_apply, edgeLine, edgeLine,
      h.kindOf?_eq hs hf (target_mem_positions hv he)]
  rw [symbolLine, hedges]
  rfl

/-- A shape does not say which positions the symbols have, nor in which order they and their edges
stand. -/
theorem shape_renumbered : s'.shape = s.shape := by
  obtain ⟨views, hperm, hviews⟩ := id h
  have hsame : views.map s'.symbolLine = s'.symbols.map s'.symbolLine := by
    refine List.forall₂_eq_eq_eq ▸ List.forall₂_map_left_iff.mpr
      (List.forall₂_map_right_iff.mpr (hviews.imp fun v v' hv => ?_))
    exact (s'.symbolLine_reorders hv).symm
  refine sortLines_eq_iff.mpr ?_
  calc s'.symbols.map s'.symbolLine
      = views.map s'.symbolLine := hsame.symm
    _ ~ (s.symbols.map (SymbolView.renumber f)).map s'.symbolLine := (hperm.map _).symm
    _ = s.symbols.map s.symbolLine := by
        rw [List.map_map]
        exact List.map_congr_left fun v hv => h.symbolLine_eq hs hf hv

end Renumbers

/-- A class, an interface of the same name and a function that answers with both. The interface is
listed twice, and nothing stands at the position of the symbol around the function. -/
def overloadedAnswer : Snapshot where
  units := ["a.ts"]
  symbols := [⟨0, "A", .instanceType, ∅, 1, []⟩, ⟨1, "A", .interface, ∅, 2, [⟨.extends, 0, "A"⟩]⟩,
    ⟨2, "f", .function, ∅, 2,
      [⟨.typedAs, 1, "A"⟩, ⟨.containedBy, 7, "m"⟩, ⟨.typedAs, 1, "A"⟩, ⟨.typedAs, 0, "A"⟩]⟩]

/-- The same symbols with their positions counted down from nine. -/
def overloadedAnswer' : Snapshot where
  units := ["b.ts", "a.ts"]
  symbols := [⟨7, "f", .function, ∅, 2,
      [⟨.typedAs, 9, "A"⟩, ⟨.typedAs, 8, "A"⟩, ⟨.typedAs, 8, "A"⟩, ⟨.containedBy, 2, "m"⟩]⟩,
    ⟨9, "A", .instanceType, ∅, 1, []⟩, ⟨8, "A", .interface, ∅, 2, [⟨.extends, 9, "A"⟩]⟩]

theorem shape_renumbered_overloadedAnswer :
    overloadedAnswer.Renumbers (9 - ·) overloadedAnswer' ∧
      (overloadedAnswer.symbols.map (·.id)).Nodup ∧
      Set.InjOn (9 - ·) {id | id ∈ overloadedAnswer.positions} ∧
      overloadedAnswer'.shape = overloadedAnswer.shape := by
  have h : overloadedAnswer.Renumbers (9 - ·) overloadedAnswer' := by
    refine ⟨[2, 0, 1].filterMap fun i =>
      (overloadedAnswer.symbols.map (SymbolView.renumber (9 - ·)))[i]?, by decide, ?_⟩
    exact .cons ⟨rfl, by decide⟩ (.cons ⟨rfl, by decide⟩ (.cons ⟨rfl, by decide⟩ .nil))
  have hs : (overloadedAnswer.symbols.map (·.id)).Nodup := by decide
  have hf : Set.InjOn (9 - ·) {id | id ∈ overloadedAnswer.positions} := by
    have hle : ∀ id ∈ overloadedAnswer.positions, id ≤ 9 := by decide
    exact Set.LeftInvOn.injOn fun id hid => Nat.sub_sub_self (hle id hid)
  exact ⟨h, hs, hf, h.shape_renumbered hs hf⟩

end Snapshot

end NameBinding
