import NameBinding.Proofs.Tree.Dotted

/-! # Names read back

A name is built as a chain of nodes that nests to the left, and read by going down both sides of
every link of the chain.

Main statement: what is read is the text that was built, taken apart at every full stop. Nothing that
is built later changes that. -/

namespace NameBinding

/-! ### Texts taken apart at full stops -/

namespace Dotted

variable {dotted : String} {segments : List String}

theorem not_mem_of_mem_splitChars {text part : List Char} (h : part ∈ splitChars text) :
    '.' ∉ part := by
  induction text generalizing part with
  | nil =>
      rw [splitChars, List.mem_singleton] at h
      simp [h]
  | cons c rest ih =>
      by_cases hc : c = '.'
      · rw [splitChars, if_pos hc] at h
        rcases List.mem_cons.mp h with rfl | h
        · exact List.not_mem_nil
        · exact ih h
      · rw [splitChars, if_neg hc] at h
        split at h
        · rw [List.mem_singleton] at h
          simp [h, Ne.symm hc]
        · next first parts hrest =>
          rcases List.mem_cons.mp h with rfl | h
          · have hfirst := ih (hrest ▸ List.mem_cons_self)
            simp [Ne.symm hc, hfirst]
          · exact ih (hrest ▸ List.mem_cons_of_mem _ h)

theorem not_mem_of_mem_split {segment : String} (h : segment ∈ split dotted) :
    '.' ∉ segment.toList := by
  obtain ⟨part, hpart, rfl⟩ := List.mem_map.mp h
  rw [String.toList_ofList]
  exact not_mem_of_mem_splitChars hpart

theorem split_ne_nil (dotted : String) : split dotted ≠ [] := by
  simp [split, splitChars_ne_nil]

/-- A text is taken apart in the only way that leaves no full stop and can be undone. -/
theorem split_eq_iff : split dotted = segments ↔
    segments ≠ [] ∧ (∀ segment ∈ segments, '.' ∉ segment.toList) ∧ join segments = dotted := by
  constructor
  · rintro rfl
    exact ⟨split_ne_nil _, fun _ => not_mem_of_mem_split, join_split _⟩
  · rintro ⟨hne, hdots, rfl⟩
    exact split_join hne hdots

end Dotted

/-! ### Names in what is built -/

theorem DocTree.Spells.entityName_eq {t : DocTree} {r : NodeRef} {segments : List String}
    (h : t.Spells r segments) : t.entityName r = segments := by
  rw [entityName, h.segments, Option.getD_some]

namespace TreeBuilder

variable {b : TreeBuilder} {r : NodeRef} {segments : List String}

theorem precedes_after (hb : b.tree.Stored) (calls : List Call) : b.Precedes (b.after calls) :=
  (b.closed_comesAfter.after calls ⟨rfl, .refl hb⟩).2

/-- A name is still there when more is built and the nodes get their places. -/
theorem spells_finish_after (hb : b.tree.Stored) (hr : b.tree.Spells r segments) (calls : List Call)
    (root : NodeRef) : ((b.after calls).finish root).Spells r segments :=
  ((precedes_after hb calls).starts.trans (starts_finish _ root)).spells hr

theorem spells_split (hb : b.tree.Stored) (dotted : String) :
    let out := StateT.run (m := Id) (Build.entityName dotted) b
    b.Precedes out.2 ∧ out.2.tree.Spells out.1 (Dotted.split dotted) := by
  obtain ⟨segment, segments, hdotted⟩ := List.exists_cons_of_ne_nil (Dotted.split_ne_nil dotted)
  obtain ⟨hprecedes, -, hspells⟩ := spells_entityName hb hdotted
  rw [hdotted]
  exact ⟨hprecedes, hspells⟩

/-- Whatever is built before the name and after it, the name is read as the segments of its text:
the only ones without full stops that the text can be put together from. -/
theorem entityName_roundtrip (path : String) (before after : List Call) (dotted : String)
    (root : NodeRef) :
    let named := StateT.run (m := Id) (Build.entityName dotted) (.ofCalls path before)
    let t := (named.2.after after).finish root
    t.entityName named.1 = Dotted.split dotted ∧ t.dottedName named.1 = dotted ∧
      ∀ segments, t.entityName named.1 = segments ↔ segments ≠ [] ∧
        (∀ segment ∈ segments, '.' ∉ segment.toList) ∧ Dotted.join segments = dotted := by
  intro named t
  obtain ⟨hprecedes, hspells⟩ := spells_split (staysPlain_ofCalls path before).2.1 dotted
  have hname : t.entityName named.1 = Dotted.split dotted :=
    (spells_finish_after hprecedes.stored hspells after root).entityName_eq
  refine ⟨hname, ?_, fun segments => ?_⟩
  · rw [DocTree.dottedName, hname, Dotted.join_split]
  · rw [hname, Dotted.split_eq_iff]

/-- Empty segments count as well. -/
example : ((StateT.run (m := Id) (Build.entityName "A..B") { path := "a.ts" }).2.finish none).entityName
    (some 4) = ["A", "", "B"] := by
  cbv

end TreeBuilder

end NameBinding
