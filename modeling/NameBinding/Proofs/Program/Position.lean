import NameBinding.Proofs.Program.Spread

/-! # The declaration at a position

A position is looked up from the script down, each time in the first declaration inside that contains
it. A declaration that stands beside the value in whose initializer it is declared is never reached.

Main statement: in a document whose nodes are used once and have their spans, the answer is the
innermost declaration exactly if no two declarations with the same parent contain the position. -/

namespace NameBinding

namespace CompilationUnit

variable {u : CompilationUnit} {offset i j k p : Nat} {a d e : Decl}

/-- The declaration with the number contains the offset. -/
def Covers (u : CompilationUnit) (offset i : Nat) : Prop :=
  ∃ d, u.decls[i]? = some d ∧ d.span.contains offset

/-- No two declarations with the same parent contain the offset. -/
def AloneAt (u : CompilationUnit) (offset : Nat) : Prop :=
  ∀ p i j, u.Parent p i → u.Parent p j → u.Covers offset i → u.Covers offset j → i = j

/-! ### The way down -/

/-- From the first number the search comes to the second one. -/
inductive Descends (u : CompilationUnit) (offset : Nat) : Nat → Nat → Prop
  | stop {i : Nat} (h : ∀ k, u.Parent i k → ¬u.Covers offset k) : Descends u offset i i
  | step {i c j : Nat} (hc : u.Parent i c) (hcovers : u.Covers offset c)
      (hfirst : ∀ k < c, u.Parent i k → ¬u.Covers offset k) (h : Descends u offset c j) :
      Descends u offset i j

theorem Preordered.mem_inside_iff (h : u.Preordered) (hd : u.decls[i]? = some d) :
    e ∈ d.children.filterMap u.decl? ↔ ∃ k, u.Parent i k ∧ u.decls[k]? = some e := by
  rw [List.mem_filterMap]
  constructor
  · rintro ⟨y, hy, hye⟩
    exact ⟨y.index, ((h.mem_children_iff hd).mp hy).2, (decl?_eq_some hye).2⟩
  · rintro ⟨k, hk, hek⟩
    exact ⟨⟨u.id, k⟩, (h.mem_children_iff hd).mpr ⟨rfl, hk⟩, by rw [decl?, if_pos rfl, hek]⟩

/-- What is inside a declaration stands there by its numbers. -/
theorem Preordered.pairwise_inside (h : u.Preordered) (hd : u.decls[i]? = some d) :
    (d.children.filterMap u.decl?).Pairwise fun a b => a.id.index < b.id.index := by
  refine List.pairwise_filterMap.mpr ((h.increasing i d hd).imp ?_)
  intro x y hlt a ha b hb
  rwa [Numbered.id_eq h.numbered ha, Numbered.id_eq h.numbered hb]

/-- By induction on the fuel. Numbers grow on the way down, so it lasts. -/
theorem Preordered.exists_descends (h : u.Preordered) (fuel : Nat) (hd : u.decls[i]? = some d)
    (hfuel : u.decls.size ≤ i + fuel) :
    ∃ j, u.innermostAt offset fuel d = ⟨u.id, j⟩ ∧ u.Descends offset i j := by
  induction fuel generalizing i d with
  | zero => exact absurd (lt_size_of_getElem? hd) (by omega)
  | succ fuel ih =>
      rw [innermostAt]
      cases hfind : (d.children.filterMap u.decl?).find? fun e => e.span.contains offset with
      | none =>
          refine ⟨i, h.numbered i d hd, .stop ?_⟩
          rintro k hk ⟨e, he, hcontains⟩
          exact List.find?_eq_none.mp hfind e ((h.mem_inside_iff hd).mpr ⟨k, hk, he⟩) hcontains
      | some c =>
          obtain ⟨hcontains, before, after, hsplit, hbefore⟩ :=
            List.find?_eq_some_iff_append.mp hfind
          obtain ⟨n, hn, hcn⟩ := (h.mem_inside_iff hd).mp (List.mem_of_find?_eq_some hfind)
          have hlt := h.parent_lt hn
          obtain ⟨j, hj, hdescends⟩ := ih hcn (by omega)
          refine ⟨j, hj, .step hn ⟨c, hcn, hcontains⟩ ?_ hdescends⟩
          rintro k hkn hk ⟨e, he, hek⟩
          have hmem := (h.mem_inside_iff hd).mpr ⟨k, hk, he⟩
          have hpairs := h.pairwise_inside hd
          rw [hsplit] at hmem hpairs
          have hindex : ∀ {m : Nat} {x : Decl}, u.decls[m]? = some x → x.id.index = m :=
            fun hx => by rw [h.numbered _ _ hx]
          rcases List.mem_append.mp hmem with hmem | hmem
          · simpa [hek] using hbefore e hmem
          · rcases List.mem_cons.mp hmem with rfl | hmem
            · exact absurd ((hindex he).symm.trans (hindex hcn)) (Nat.ne_of_lt hkn)
            · have hafter := (List.pairwise_cons.mp (List.pairwise_append.mp hpairs).2.1).1 e hmem
              rw [hindex he, hindex hcn] at hafter
              omega

namespace Descends

theorem eq_or_below (h : u.Descends offset i j) : j = i ∨ u.Below i j := by
  induction h with
  | stop => exact .inl rfl
  | step hc _ _ _ ih =>
      rcases ih with rfl | hbelow
      · exact .inr (.single hc)
      · exact .inr (.head hc hbelow)

theorem covers (h : u.Descends offset i j) (hi : u.Covers offset i) : u.Covers offset j := by
  induction h with
  | stop => exact hi
  | step _ hcovers _ _ ih => exact ih hcovers

end Descends

/-! ### Nested spans -/

/-- Declarations stand inside the one around them, and behind those beside them. What stands inside of
one beside it comes later, and that one has nothing below it. -/
structure SpansNest (u : CompilationUnit) : Prop where
  around : ∀ {p i a d}, u.Parent p i → u.decls[p]? = some a → u.decls[i]? = some d →
    a.span.isValid ∧ a.span.start ≤ d.span.start ∧ d.span.stop ≤ a.span.stop
  beside : ∀ {p i j a d}, u.Parent p i → u.Parent p j → i < j → u.decls[i]? = some a →
    u.decls[j]? = some d → a.span.stop ≤ d.span.start ∨
      (a.span.start < d.span.start ∧ ∀ k, ¬u.Parent i k)

namespace SpansNest

variable (h : u.Preordered) (hn : u.SpansNest)

include h hn

theorem covers_of_parent (hp : u.Parent p i) (hi : u.Covers offset i) : u.Covers offset p := by
  obtain ⟨a, ha, -⟩ := h.exists_parent hp
  obtain ⟨d, hd, hcontains⟩ := hi
  obtain ⟨hvalid, hstart, hstop⟩ := hn.around hp ha hd
  obtain ⟨-, hlo, hhi⟩ := Span.contains_iff.mp hcontains
  exact ⟨a, ha, Span.contains_iff.mpr
    ⟨hvalid, Nat.le_trans hstart hlo, Nat.lt_of_lt_of_le hhi hstop⟩⟩

theorem covers_of_below (hb : u.Below p i) (hi : u.Covers offset i) : u.Covers offset p := by
  induction hb using Relation.TransGen.head_induction_on with
  | single hp => exact hn.covers_of_parent h hp hi
  | head hp _ ih => exact hn.covers_of_parent h hp ih

/-- On the way to what contains the offset everything contains it. -/
theorem exists_covering_child (hb : u.Below i k) (hk : u.Covers offset k) :
    ∃ c, u.Parent i c ∧ u.Covers offset c ∧ (k = c ∨ u.Below c k) := by
  obtain ⟨c, hc, hrest⟩ := Relation.TransGen.head'_iff.mp hb
  rcases Relation.reflTransGen_iff_eq_or_transGen.mp hrest with rfl | hrest
  · exact ⟨k, hc, hk, .inl rfl⟩
  · exact ⟨c, hc, hn.covers_of_below h hrest hk, .inr hrest⟩

omit h

theorem encloses_of_below (hb : u.Below p i) (ha : u.decls[p]? = some a)
    (hd : u.decls[i]? = some d) (hvalid : d.span.isValid) : a.span.encloses d.span := by
  suffices hbounds : a.span.isValid ∧ a.span.start ≤ d.span.start ∧ d.span.stop ≤ a.span.stop from
    Span.encloses_iff.mpr ⟨hbounds.1, hvalid, hbounds.2⟩
  induction hb using Relation.TransGen.head_induction_on generalizing a with
  | single hp => exact hn.around hp ha hd
  | head hp _ ih =>
      obtain ⟨c, hc⟩ : ∃ c, u.decls[_]? = some c := ⟨_, hp.choose_spec.1⟩
      obtain ⟨havalid, hstart, hstop⟩ := hn.around hp ha hc
      obtain ⟨-, hstart', hstop'⟩ := ih hc
      exact ⟨havalid, Nat.le_trans hstart hstart', Nat.le_trans hstop' hstop⟩

/-- Of two declarations with one parent that contain the offset, the second one stands inside the
first one, which has nothing below it. -/
theorem lt_of_covers (hi : u.Parent p i) (hj : u.Parent p j) (hij : i < j)
    (ha : u.decls[i]? = some a) (hd : u.decls[j]? = some d) (hacontains : a.span.contains offset)
    (hdcontains : d.span.contains offset) :
    a.span.start < d.span.start ∧ ∀ k, ¬u.Parent i k := by
  have hastop := (Span.contains_iff.mp hacontains).2.2
  have hdstart := (Span.contains_iff.mp hdcontains).2.1
  exact (hn.beside hi hj hij ha hd).resolve_left (by omega)

end SpansNest

/-! ### Where the way ends -/

/-- A declaration that contains the offset starts behind the start of another one. -/
def StartsBehind (u : CompilationUnit) (offset j : Nat) : Prop :=
  ∃ d, u.decls[j]? = some d ∧ ∃ (k : Nat) (e : Decl), u.decls[k]? = some e ∧
    e.span.contains offset ∧ d.span.start < e.span.start

namespace Descends

variable (h : u.Preordered) (hn : u.SpansNest)

include h hn

/-- Without two declarations to choose from, the way passes all that contain the offset. -/
theorem passes (hway : u.Descends offset i j) (halone : u.AloneAt offset) (hk : u.Covers offset k)
    (hik : k = i ∨ u.Below i k) : k = j ∨ u.Below k j := by
  induction hway with
  | stop hnone =>
      refine .inl (hik.resolve_right fun hbelow => ?_)
      obtain ⟨c, hc, hcovers, -⟩ := hn.exists_covering_child h hbelow hk
      exact hnone c hc hcovers
  | step hc hcovers _ hway ih =>
      rcases hik with rfl | hbelow
      · rcases eq_or_below hway with rfl | hbelow
        · exact .inr (.single hc)
        · exact .inr (.head hc hbelow)
      · obtain ⟨c', hc', hcovers', hck⟩ := hn.exists_covering_child h hbelow hk
        obtain rfl := halone _ _ _ hc hc' hcovers hcovers'
        exact ih hck

omit h

/-- If the way leads past a later declaration, it ends there, and the later one starts behind. -/
theorem exists_behind_of_later {c x : Nat} (hway : u.Descends offset c j) (hc : u.Parent i c)
    (hx : u.Parent i x) (hcx : c < x) (hcovers : u.Covers offset c) (hxcovers : u.Covers offset x) :
    u.StartsBehind offset j := by
  obtain ⟨d, hd, hdcontains⟩ := hcovers
  obtain ⟨e, he, hecontains⟩ := hxcovers
  obtain ⟨hlt, hnone⟩ := hn.lt_of_covers hc hx hcx hd he hdcontains hecontains
  cases hway with
  | stop => exact ⟨d, hd, x, e, he, hecontains, hlt⟩
  | step hchild => exact absurd hchild (hnone _)

include h

/-- With two declarations to choose from, one that contains the offset starts behind the end of the
way. -/
theorem exists_behind (hway : u.Descends offset i j) (hp : p = i ∨ u.Below i p) {m n : Nat}
    (hm : u.Parent p m) (hparent : u.Parent p n) (hmn : m < n) (hmcovers : u.Covers offset m)
    (hncovers : u.Covers offset n) :
    u.StartsBehind offset j := by
  have hpcovers := hn.covers_of_parent h hm hmcovers
  induction hway with
  | stop hnone =>
      rcases hp with rfl | hbelow
      · exact absurd hmcovers (hnone m hm)
      · obtain ⟨c, hc, hcovers, -⟩ := hn.exists_covering_child h hbelow hpcovers
        exact absurd hcovers (hnone c hc)
  | @step i c j hc hcovers hfirst hway ih =>
      rcases hp with rfl | hbelow
      · have hcm : c ≤ m := Nat.not_lt.mp fun hlt => hfirst m hlt hm hmcovers
        exact exists_behind_of_later hn hway hc hparent (Nat.lt_of_le_of_lt hcm hmn) hcovers hncovers
      · obtain ⟨c', hc', hcovers', hcp⟩ := hn.exists_covering_child h hbelow hpcovers
        rcases Nat.lt_trichotomy c c' with hlt | rfl | hlt
        · exact exists_behind_of_later hn hway hc hc' hlt hcovers hcovers'
        · exact ih hcp
        · exact absurd hcovers' (hfirst c' hlt hc')

end Descends

theorem exists_covers_iff :
    (∃ i, u.Covers offset i) ↔ ∃ d ∈ u.decls, d.span.contains offset := by
  simp only [Covers, Array.mem_iff_getElem?]
  constructor
  · rintro ⟨i, d, hd, hcontains⟩
    exact ⟨d, ⟨i, hd⟩, hcontains⟩
  · rintro ⟨d, ⟨i, hd⟩, hcontains⟩
    exact ⟨i, d, hd, hcontains⟩

section Search

variable (h : u.Preordered) (hn : u.SpansNest) (hroot : u.rootDecl = ⟨u.id, 0⟩) {y : DeclId}

include h hroot

theorem exists_descends_of_declAt? (hy : u.declAt? offset = some y) :
    ∃ j, y = ⟨u.id, j⟩ ∧ u.Covers offset 0 ∧ u.Descends offset 0 j := by
  rw [declAt?, hroot, decl?, if_pos rfl] at hy
  split at hy
  · next d hd =>
    split at hy
    · next hcontains =>
      obtain ⟨j, hj, hway⟩ := h.exists_descends u.decls.size hd (by omega)
      exact ⟨j, (Option.some.inj hy).symm.trans hj, ⟨d, hd, hcontains⟩, hway⟩
    · exact absurd hy (by simp)
  · exact absurd hy (by simp)

include hn

/-- The script contains what any declaration contains. -/
theorem declAt?_eq_none_iff :
    u.declAt? offset = none ↔ ∀ d ∈ u.decls, ¬d.span.contains offset := by
  have hall : (∃ d ∈ u.decls, d.span.contains offset) ↔ u.Covers offset 0 := by
    rw [← exists_covers_iff]
    refine ⟨fun ⟨i, hi⟩ => ?_, fun h0 => ⟨0, h0⟩⟩
    have hcovers := hi
    obtain ⟨d, hd, -⟩ := hi
    rcases h.eq_zero_or_below hd with rfl | hbelow
    · exact hcovers
    · exact hn.covers_of_below h hbelow hcovers
  have hnone : (∀ d ∈ u.decls, ¬d.span.contains offset) ↔ ¬u.Covers offset 0 := by
    rw [← hall]
    simp
  rw [hnone, declAt?, hroot, decl?, if_pos rfl, Covers]
  cases u.decls[0]? with
  | none => simp
  | some d =>
      cases hcontains : d.span.contains offset <;> simp [hcontains]

/-- The search ends at the innermost declaration exactly if it never had a choice. -/
theorem declAt?_innermost_iff (hy : u.declAt? offset = some y) :
    ∃ d, u.decl? y = some d ∧ d.span.contains offset ∧
      ((∀ e ∈ u.decls, e.span.contains offset → e.span.encloses d.span) ↔ u.AloneAt offset) := by
  obtain ⟨j, rfl, h0, hway⟩ := exists_descends_of_declAt? h hroot hy
  obtain ⟨d, hd, hcontains⟩ := hway.covers h0
  have hvalid := (Span.contains_iff.mp hcontains).1
  refine ⟨d, by rw [decl?, if_pos rfl, hd], hcontains, fun hall => ?_, fun halone e he hecontains => ?_⟩
  · by_contra halone
    unfold AloneAt at halone
    push Not at halone
    obtain ⟨p, m, n, hm, hparent, hmcovers, hncovers, hne⟩ := halone
    obtain ⟨a, ha, -⟩ := h.exists_parent hm
    have hp := h.eq_zero_or_below ha
    have hbehind : u.StartsBehind offset j := by
      rcases Nat.lt_or_gt_of_ne hne with hlt | hlt
      · exact hway.exists_behind h hn hp hm hparent hlt hmcovers hncovers
      · exact hway.exists_behind h hn hp hparent hm hlt hncovers hmcovers
    obtain ⟨d', hd', k, e, he, hecontains, hlt⟩ := hbehind
    obtain rfl := Option.some.inj (hd.symm.trans hd')
    have hencloses := hall e (Array.mem_iff_getElem?.mpr ⟨k, he⟩) hecontains
    exact absurd (Span.encloses_iff.mp hencloses).2.2.1 (Nat.not_le.mpr hlt)
  · obtain ⟨k, hk⟩ := Array.mem_iff_getElem?.mp he
    have hbelow : k = 0 ∨ u.Below 0 k := h.eq_zero_or_below hk
    rcases hway.passes h hn halone ⟨e, hk, hecontains⟩ hbelow with rfl | hbelow
    · obtain rfl := Option.some.inj (hk.symm.trans hd)
      exact Span.encloses_iff.mpr ⟨hvalid, hvalid, Nat.le_refl _, Nat.le_refl _⟩
    · exact hn.encloses_of_below hbelow hk hd hvalid

end Search

/-! ### Collected units -/

/-- In a document whose nodes stand inside each other, in order, declarations do so too. -/
theorem spansNest_collect {t : DocTree} {root : NodeRef} (h : t.NeatBelow root) (id : UnitId)
    (path : String) (limit : Nat) : ((ofTree id path t root).collect limit).SpansNest := by
  let u := (ofTree id path t root).collect limit
  have hspread := DocTree.spread_rootOutline h path limit
  have hspan : ∀ {i : Nat} {d : Decl}, u.decls[i]? = some d → d.span = t.span d.entry.node := by
    intro i d hd
    have htree : u.tree = t := (sound_collect limit id path t root).tree_eq
    exact htree ▸ readsSpans_collect id path t root limit i d hd
  have hentry : ∀ {i : Nat} {d : Decl} {e : Entry}, u.decls[i]? = some d → u.entryAt i = some e →
      d.entry = e := fun hd he => by
    rw [entryAt, hd, Option.map_some] at he
    exact Option.some.inj he
  constructor
  · intro p i a d hp ha hd
    obtain ⟨x, y, hx, hy, haround⟩ := linked_collect_of_outline hspread.linked id p i hp
    rw [hspan ha, hspan hd, hentry ha hx, hentry hd hy]
    exact haround
  · intro p i j a d hi hj hij ha hd
    obtain ⟨x, y, hx, hy, hbeside⟩ := ranked_collect_of_outline hspread.ranked id p i j hi hj hij
    rw [hspan ha, hspan hd, hentry ha hx, hentry hd hy]
    refine hbeside.imp_right fun hvalue => ⟨hvalue.1, fun k hk => ?_⟩
    obtain ⟨x', _, hx', -, hframes⟩ := frames_collect id path t root limit i k hk
    obtain rfl := Option.some.inj (hx.symm.trans hx')
    exact hvalue.2 hframes.1

/-- In a document that is built with each node used once and no span taken away, a position has a
declaration if any declaration contains it. The answer contains it too, and is inside all that do,
exactly if no two of these have the same parent. -/
theorem declAt?_collect {b : TreeBuilder} {root : NodeRef} (h : (b.finish root).PlacedOnce root)
    (id : UnitId) (path : String) (limit offset : Nat) :
    let u := (ofTree id path (b.finish root) root).collect limit
    (u.declAt? offset = none ↔ ∀ d ∈ u.decls, ¬d.span.contains offset) ∧
      ∀ y, u.declAt? offset = some y → ∃ d, u.decl? y = some d ∧ d.span.contains offset ∧
        ((∀ e ∈ u.decls, e.span.contains offset → e.span.encloses d.span) ↔ u.AloneAt offset) := by
  intro u
  obtain ⟨hid, hpre⟩ := preordered_collect id path (b.finish root) root limit
  have hneat : (b.finish root).NeatBelow root := fun r hr hnode => TreeBuilder.neat_finish h hr hnode
  have hn := spansNest_collect hneat id path limit
  have hroot : u.rootDecl = ⟨u.id, 0⟩ := by
    rw [hid]
    exact rootDecl_collect limit id path (b.finish root) root
  exact ⟨declAt?_eq_none_iff hpre hn hroot, fun y hy => declAt?_innermost_iff hpre hn hroot hy⟩

/-- A variable whose initializer is a function. -/
def functionValue : TreeBuilder := .ofCalls "a.ts"
  [.functionExpression none [] none [], .singleVariable "f" ∅ none (some 1), .sourceFile [some 4]]

def functionValueUnit : CompilationUnit :=
  (ofTree 0 "a.ts" (functionValue.finish (some 5)) (some 5)).collect 8

theorem placedOnce_functionValue : (functionValue.finish (some 5)).PlacedOnce (some 5) :=
  ⟨by decide +kernel, by decide +kernel⟩

/-- The function is beside the variable, and is not found. -/
theorem exists_missed_functionValue : functionValueUnit.declAt? 7 = some ⟨0, 1⟩ ∧
    ∃ d e, functionValueUnit.decl? ⟨0, 1⟩ = some d ∧ e ∈ functionValueUnit.decls ∧
      e.span.contains 7 ∧ ¬e.span.encloses d.span := by
  have hspan : (functionValueUnit.decl? ⟨0, 1⟩).map (·.span) = some ⟨2, 11⟩ := by decide +kernel
  obtain ⟨d, hd, hdspan⟩ := Option.map_eq_some_iff.mp hspan
  obtain ⟨e, he, hcontains, hencloses⟩ : ∃ e ∈ functionValueUnit.decls,
      e.span.contains 7 ∧ ¬e.span.encloses ⟨2, 11⟩ := by decide +kernel
  exact ⟨by decide +kernel, d, e, hd, he, hcontains, hdspan ▸ hencloses⟩

theorem declAt?_collect_functionValue :
    (functionValue.finish (some 5)).PlacedOnce (some 5) ∧ ¬functionValueUnit.AloneAt 7 := by
  obtain ⟨hat, d, e, hd, he, hcontains, hencloses⟩ := exists_missed_functionValue
  obtain ⟨d', hd', -, hiff⟩ := (declAt?_collect placedOnce_functionValue 0 "a.ts" 8 7).2 _ hat
  obtain rfl := Option.some.inj (hd'.symm.trans hd)
  exact ⟨placedOnce_functionValue, fun halone => hencloses (hiff.mpr halone e he hcontains)⟩

/-- The declaration at a position is not always the innermost one. -/
theorem not_declAt?_innermost : ¬∀ (b : TreeBuilder) (root : NodeRef) (id : UnitId) (path : String)
    (limit offset : Nat), (b.finish root).PlacedOnce root →
      let u := (ofTree id path (b.finish root) root).collect limit
      u.diagnostics = [] → ∀ y d, u.declAt? offset = some y → u.decl? y = some d →
        ∀ e ∈ u.decls, e.span.contains offset → e.span.encloses d.span := by
  intro h
  obtain ⟨hat, d, e, hd, he, hcontains, hencloses⟩ := exists_missed_functionValue
  exact hencloses (h functionValue (some 5) 0 "a.ts" 8 7 placedOnce_functionValue
    (by decide +kernel) _ d hat hd e he hcontains)

end CompilationUnit

end NameBinding
