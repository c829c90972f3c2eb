import Mathlib.Data.List.Nodup
import Mathlib.Data.List.Pairwise
import NameBinding.Proofs.Tree.Calls
import NameBinding.Proofs.Tree.Spans

/-! # Nodes that are used once

If below a root nodes are used once, by nodes that are built later, then no node stands below two nodes
that are beside each other. So each node is placed once, where its place is.

Main statement: whatever calls build such a tree, at the end spans nest strictly and in order, nodes
have the nodes above them as parents, and what is not below the root is left as it was. -/

namespace NameBinding

namespace DocTree

/-- The node is the root or below it. -/
def AtOrBelow (t : DocTree) : NodeRef → NodeRef → Prop :=
  Relation.ReflTransGen fun r above => r ∈ t.children above

/-- At and below the root, nodes are used once, by nodes that are built later. In particular nothing
there uses the root. Nodes that are missing can be used anywhere. -/
structure UsedOnce (t : DocTree) (root : NodeRef) : Prop where
  earlier : ∀ i j, t.AtOrBelow (some i) root → some j ∈ t.children (some i) →
    (t.node? (some j)).isSome → j < i
  once : ∀ r, t.AtOrBelow r root → ((t.children r).filter fun c => (t.node? c).isSome).Nodup
  sole : ∀ r r' c, t.AtOrBelow r root → t.AtOrBelow r' root → c ∈ t.children r →
    c ∈ t.children r' → (t.node? c).isSome → r = r'

/-- The room of what is placed below a root. -/
def totalRoom (t : DocTree) (root : NodeRef) : Nat := t.roomOf (t.inOrder (t.size + 1) root)

/-- Spans and parents are as the nodes stand below the root. Marked nodes need not have a span. -/
structure Nested (t : DocTree) (root : NodeRef) (marked : List NodeRef) : Prop where
  valid : ∀ r, t.AtOrBelow r root → (t.node? r).isSome → r ∉ marked →
    (t.span r).isValid ∧ (t.span r).start < (t.span r).stop
  inside : ∀ r c, t.AtOrBelow r root → r ∉ marked → c ∈ t.children r → (t.node? c).isSome →
    c ∉ marked → (t.span r).start < (t.span c).start ∧ (t.span c).stop < (t.span r).stop
  apart : ∀ r, t.AtOrBelow r root →
    ((t.children r).filter fun c => (t.node? c).isSome ∧ c ∉ marked).Pairwise
      fun c d => (t.span c).stop ≤ (t.span d).start
  parent : ∀ r c, t.AtOrBelow r root → c ∈ t.children r → (t.node? c).isSome → t.parent c = r
  top : t.parent root = none
  outside : ∀ r, ¬t.AtOrBelow r root → t.span r = Span.invalid ∧ t.parent r = none

/-- Nothing is placed yet. -/
structure Fresh (t : DocTree) : Prop where
  span : ∀ r, t.span r = Span.invalid
  parent : ∀ r, t.parent r = none
  size : t.parents.size = t.size

variable {t s : DocTree} {root r c c' x : NodeRef} {depth : Nat}

/-! ### The way down -/

theorem atOrBelow_iff : t.AtOrBelow r root ↔ r = root ∨ t.Below r root := by
  rw [AtOrBelow, Relation.reflTransGen_iff_eq_or_transGen, eq_comm]
  rfl

theorem AtOrBelow.child (h : t.AtOrBelow r root) (hc : c ∈ t.children r) : t.AtOrBelow c root :=
  .head hc h

theorem atOrBelow_of_mem_inOrder (hx : x ∈ t.inOrder depth r) : t.AtOrBelow x r := by
  induction depth generalizing r with
  | zero => exact absurd hx List.not_mem_nil
  | succ depth ih =>
      rw [inOrder] at hx
      split at hx
      · rcases List.mem_cons.mp hx with rfl | hx
        · exact .refl
        · obtain ⟨c, hc, hx⟩ := List.mem_flatMap.mp hx
          exact .tail (ih hx) hc
      · exact absurd hx List.not_mem_nil

theorem AtOrBelow.isSome (h : t.AtOrBelow x r) (hnode : (t.node? x).isSome) :
    (t.node? r).isSome := by
  rcases h.cases_tail with rfl | ⟨_, _, hlast⟩
  · exact hnode
  · exact isSome_of_mem_children hlast

namespace UsedOnce

variable (h : t.UsedOnce root)

include h

theorem lt_of_child (hr : t.AtOrBelow r root) (hc : c ∈ t.children r) (hnode : (t.node? c).isSome) :
    c.getD 0 < r.getD 0 := by
  match r, c, isSome_of_mem_children hc, hnode with
  | some i, some j, _, hnode => exact h.earlier i j hr hc hnode

/-- By induction on the way down. -/
theorem le_of_atOrBelow (hr : t.AtOrBelow r root) (hx : t.AtOrBelow x r)
    (hnode : (t.node? x).isSome) : x.getD 0 ≤ r.getD 0 := by
  induction hx using Relation.ReflTransGen.head_induction_on with
  | refl => exact Nat.le_refl _
  | @head x above hx habove ih =>
      have hlt := h.lt_of_child (.trans habove hr) hx hnode
      exact Nat.le_trans (Nat.le_of_lt hlt) (ih (isSome_of_mem_children hx))

/-- A node is not at or below what is right below it. -/
theorem not_atOrBelow_child (hr : t.AtOrBelow r root) (hc : c ∈ t.children r) :
    ¬t.AtOrBelow r c := fun hbelow => by
  have hnode := isSome_of_mem_children hc
  have hlt := h.lt_of_child hr hc (hbelow.isSome hnode)
  exact Nat.lt_irrefl _ (Nat.lt_of_lt_of_le hlt (h.le_of_atOrBelow (hr.child hc) hbelow hnode))

/-- Of two nodes beside each other, none is below the other one. -/
theorem eq_of_atOrBelow (hr : t.AtOrBelow r root) (hc : c ∈ t.children r) (hc' : c' ∈ t.children r)
    (hnode : (t.node? c).isSome) (hbelow : t.AtOrBelow c c') : c = c' := by
  rcases hbelow.cases_head with rfl | ⟨above, habove, hrest⟩
  · rfl
  · obtain rfl := h.sole above r c (hrest.trans (hr.child hc')) hr habove hc hnode
    exact absurd hrest (h.not_atOrBelow_child hr hc')

/-- Nothing is below two nodes beside each other. By induction on the way down from one of them. -/
theorem eq_of_common (hr : t.AtOrBelow r root) (hc : c ∈ t.children r) (hc' : c' ∈ t.children r)
    (hnode : (t.node? x).isSome) (hx : t.AtOrBelow x c) (hx' : t.AtOrBelow x c') : c = c' := by
  induction hx using Relation.ReflTransGen.head_induction_on with
  | refl => exact h.eq_of_atOrBelow hr hc hc' hnode hx'
  | @head x above hx habove ih =>
      rcases hx'.cases_head with rfl | ⟨above', hmem, habove'⟩
      · exact (h.eq_of_atOrBelow hr hc' hc hnode (.head hx habove)).symm
      · obtain rfl := h.sole above above' x (habove.trans (hr.child hc)) (habove'.trans (hr.child hc'))
          hx hmem hnode
        exact ih (isSome_of_mem_children hx) habove'

/-- By induction on the levels. -/
theorem nodup_inOrder (hr : t.AtOrBelow r root) (depth : Nat) : (t.inOrder depth r).Nodup := by
  induction depth generalizing r with
  | zero => exact .nil
  | succ depth ih =>
      rw [inOrder]
      split
      · refine List.nodup_cons.mpr ⟨fun hmem => ?_, List.nodup_flatMap.mpr
          ⟨fun c hc => ih (hr.child hc), ?_⟩⟩
        · obtain ⟨c, hc, hmem⟩ := List.mem_flatMap.mp hmem
          exact h.not_atOrBelow_child hr hc (atOrBelow_of_mem_inOrder hmem)
        · refine (List.pairwise_filter.mp (h.once r hr)).imp_of_mem fun hc hc' hne x hx hx' => ?_
          have hnode := isSome_of_mem_inOrder hx
          have hbelow := atOrBelow_of_mem_inOrder hx
          have hbelow' := atOrBelow_of_mem_inOrder hx'
          exact hne (hbelow.isSome hnode) (hbelow'.isSome hnode)
            (h.eq_of_common hr hc hc' hnode hbelow hbelow')
      · exact .nil

/-- What has room is what is there at and below the root. -/
theorem mem_inOrder_iff : x ∈ t.inOrder (t.size + 1) root ↔
    t.AtOrBelow x root ∧ (t.node? x).isSome := by
  refine ⟨fun hx => ⟨atOrBelow_of_mem_inOrder hx, isSome_of_mem_inOrder hx⟩, fun ⟨hx, hnode⟩ => ?_⟩
  exact (laid_layout (.refl t) rfl (h.nodup_inOrder .refl _) (atOrBelow_iff.mp hx) hnode).1

end UsedOnce

/-- What stands in two parts of a list without repetitions stands in one part. -/
theorem eq_of_nodup_flatMap {α β : Type} {l : List α} {f : α → List β} (h : (l.flatMap f).Nodup)
    {a b : α} (ha : a ∈ l) (hb : b ∈ l) {x : β} (hxa : x ∈ f a) (hxb : x ∈ f b) : a = b := by
  by_contra hne
  have : Std.Symm (Function.onFun List.Disjoint f) := ⟨fun _ _ hd _ hx hx' => hd hx' hx⟩
  exact (List.nodup_flatMap.mp h).2.forall ha hb hne hxa hxb

/-- Where nodes are used once in the whole tree, they are so below every root. -/
theorem UsedOnce.of_nodup (root : NodeRef)
    (hearlier : ∀ i < t.size, ∀ c ∈ t.children (some i), (t.node? c).isSome → c.getD 0 < i)
    (honce : (((List.range t.size).flatMap fun i => t.children (some i)).filter
      fun c => (t.node? c).isSome).Nodup) : t.UsedOnce root := by
  have hindex : ∀ {r c}, c ∈ t.children r → ∃ i < t.size, r = some i := fun hc =>
    exists_index (isSome_of_mem_children hc)
  rw [List.filter_flatMap] at honce
  refine ⟨fun i j _ hj hnode => ?_, fun r _ => ?_, fun r r' c _ _ hc hc' hnode => ?_⟩
  · obtain ⟨i, hi, heq⟩ := hindex hj
    obtain rfl := Option.some.inj heq
    exact hearlier _ hi _ hj hnode
  · by_cases hr : (t.node? r).isSome
    · obtain ⟨i, hi, rfl⟩ := exists_index hr
      exact (List.nodup_flatMap.mp honce).1 i (List.mem_range.mpr hi)
    · rw [children_eq_nil (by simpa using hr)]
      exact .nil
  · obtain ⟨i, hi, rfl⟩ := hindex hc
    obtain ⟨j, hj, rfl⟩ := hindex hc'
    exact congrArg some (eq_of_nodup_flatMap honce (List.mem_range.mpr hi) (List.mem_range.mpr hj)
      (List.mem_filter.mpr ⟨hc, hnode⟩) (List.mem_filter.mpr ⟨hc', hnode⟩))

/-! ### Layout -/

namespace UsedOnce

variable (h : t.UsedOnce root)

include h

theorem laid (hr : t.AtOrBelow r root) (hnode : (t.node? r).isSome) : t.Laid (t.layout root) r :=
  (laid_layout (.refl t) rfl (h.nodup_inOrder .refl _) (atOrBelow_iff.mp hr) hnode).2

theorem places : t.Places (t.size + 1) none root t 0 (place (t.size + 1) none (t, 0) root) :=
  places_place (.refl t) (h.nodup_inOrder .refl _)

/-- All nodes have room. By induction on the way down. -/
theorem bounds (hr : t.AtOrBelow r root) (hnode : (t.node? r).isSome) :
    ((t.layout root).span r).start < ((t.layout root).span r).stop ∧
      ((t.layout root).span r).stop ≤ t.totalRoom root := by
  induction hr using Relation.ReflTransGen.head_induction_on with
  | refl =>
      have hstop := h.places.stop
      rw [Nat.zero_add] at hstop
      rw [layout, h.places.span (Nat.succ_ne_zero _) hnode, hstop]
      exact ⟨roomOf_inOrder_pos (Nat.succ_ne_zero _) hnode, Nat.le_refl _⟩
  | @head r above hr habove ih =>
      have hplaced := (h.laid habove (isSome_of_mem_children hr)).tiles.bounds hr hnode
      have hroom := (ih (isSome_of_mem_children hr)).2
      omega

/-- Nothing else is placed. -/
theorem stays (hr : ¬t.AtOrBelow r root) : t.Stays (t.layout root) r :=
  h.places.frame r fun hmem => hr (atOrBelow_of_mem_inOrder hmem)

variable (hfresh : t.Fresh)

include hfresh

theorem parent_layout (hr : t.AtOrBelow r root) (hc : c ∈ t.children r)
    (hnode : (t.node? c).isSome) : (t.layout root).parent c = r := by
  obtain ⟨i, hlt, rfl⟩ := exists_index hnode
  exact (h.laid hr (isSome_of_mem_children hc)).parent i hc hnode (hfresh.size ▸ hlt)

theorem parent_layout_root : (t.layout root).parent root = none := by
  by_cases hnode : (t.node? root).isSome
  · obtain ⟨i, hlt, hi⟩ := exists_index hnode
    exact h.places.parent (Nat.succ_ne_zero _) i hi hnode (hfresh.size ▸ hlt)
  · have hstays := h.places.frame root (by rw [inOrder_eq_nil hnode]; exact List.not_mem_nil)
    exact hstays.2.trans (hfresh.parent root)

end UsedOnce

end DocTree

namespace TreeBuilder

open DocTree

variable (b : TreeBuilder) {root r : NodeRef}

theorem span_finish_of_not_mem (hr : r ∉ b.unplaced) :
    (b.finish root).span r = (b.tree.layout root).span r :=
  span_withoutSpans_of_not_mem _ hr

theorem parent_finish : (b.finish root).parent r = (b.tree.layout root).parent r :=
  withoutSpans_invariant (f := (·.parent r)) (fun _ _ _ => rfl) _ _

theorem children_finish : (b.finish root).children = b.tree.children :=
  funext fun r => ((b.sameShape_finish root).children r).symm

theorem atOrBelow_finish : (b.finish root).AtOrBelow = b.tree.AtOrBelow := by
  unfold AtOrBelow
  rw [children_finish]

/-- Where nothing is placed before and nodes are used once, all is placed as it stands. -/
theorem nested_of_fresh (h : b.tree.UsedOnce root) (hfresh : b.tree.Fresh)
    (hroom : b.tree.totalRoom root ≤ Span.noOffset) : (b.finish root).Nested root b.unplaced := by
  have hisSome : ∀ r, ((b.finish root).node? r).isSome = (b.tree.node? r).isSome := fun r =>
    ((b.sameShape_finish root).isSome r).symm
  constructor
  all_goals simp only [b.atOrBelow_finish, b.children_finish, hisSome, b.parent_finish]
  case valid =>
    intro r hr hnode hmarked
    have hbounds := h.bounds hr hnode
    rw [b.span_finish_of_not_mem hmarked]
    have hstart := Nat.ne_of_lt (Nat.lt_of_lt_of_le hbounds.1 (Nat.le_trans hbounds.2 hroom))
    exact ⟨Span.isValid_iff.mpr ⟨hstart, Nat.le_of_lt hbounds.1⟩, hbounds.1⟩
  case inside =>
    intro r c hr hmarked hc hnode hcmarked
    have hbounds := (h.laid hr (isSome_of_mem_children hc)).tiles.bounds hc hnode
    rw [b.span_finish_of_not_mem hmarked, b.span_finish_of_not_mem hcmarked]
    omega
  case apart =>
    intro r hr
    refine List.pairwise_filter.mpr ?_
    by_cases hnode : (b.tree.node? r).isSome
    · refine (h.laid hr hnode).tiles.pairwise.imp fun hpair hc hd => ?_
      obtain ⟨hcnode, hcmarked⟩ := of_decide_eq_true hc
      obtain ⟨hdnode, hdmarked⟩ := of_decide_eq_true hd
      rw [b.span_finish_of_not_mem hcmarked, b.span_finish_of_not_mem hdmarked]
      exact hpair hcnode hdnode
    · rw [children_eq_nil (by simpa using hnode)]
      exact .nil
  case parent => exact fun r c hr hc hnode => h.parent_layout hfresh hr hc hnode
  case top => exact h.parent_layout_root hfresh
  case outside =>
    intro r hr
    obtain ⟨hspan, hparent⟩ := h.stays hr
    refine ⟨?_, hparent.trans (hfresh.parent r)⟩
    refine (span_withoutSpans _ b.unplaced r).elim (fun hkept => ?_) id
    exact hkept.trans (hspan.trans (hfresh.span r))

/-- One builder, which has placed nothing yet. -/
def StaysFresh (b b' : TreeBuilder) : Prop := b = b' ∧ b.tree.Fresh

variable {b}

theorem fresh_addNode (h : b.tree.Fresh) (kind : NodeKind) (modifiers : Flags Modifier)
    (data : Option Nat) :
    (StateT.run (m := Id) (Build.addNode kind modifiers data) b).2.tree.Fresh := by
  refine ⟨fun r => ?_, fun r => ?_, ?_⟩
  · cases r with
    | none => rfl
    | some i =>
        change ((b.tree.nodes.push ⟨kind, modifiers, Span.invalid, data⟩)[i]?.map (·.span)).getD _ = _
        rw [Array.getElem?_push]
        split
        · rfl
        · exact h.span (some i)
  · cases r with
    | none => rfl
    | some i =>
        change ((b.tree.parents.push none)[i]?).bind id = none
        rw [Array.getElem?_push]
        split
        · rfl
        · exact h.parent (some i)
  · change (b.tree.parents.push none).size = (b.tree.nodes.push _).size
    rw [Array.size_push, Array.size_push, h.size]
    rfl

theorem closed_staysFresh : Build.Closed StaysFresh where
  path := by
    rintro b _ ⟨rfl, -⟩
    rfl
  leaf kind modifiers := by
    rintro b _ ⟨rfl, h⟩
    exact ⟨⟨rfl, fresh_addNode h kind modifiers none⟩, rfl⟩
  node kind modifiers record _ := by
    rintro b _ ⟨rfl, h⟩
    let pushed : TreeBuilder := { b with tree := { b.tree with pools := b.tree.pools.push record } }
    have hpushed : pushed.tree.Fresh := ⟨h.span, h.parent, h.size⟩
    exact ⟨⟨rfl, fresh_addNode hpushed kind modifiers _⟩, rfl⟩
  unplace r := by
    rintro b _ ⟨rfl, h⟩
    exact ⟨⟨rfl, ⟨h.span, h.parent, h.size⟩⟩, rfl⟩

theorem fresh_ofCalls (path : String) (calls : List Call) : (ofCalls path calls).tree.Fresh :=
  have hstart : ({ path } : TreeBuilder).tree.Fresh :=
    ⟨fun r => by cases r <;> rfl, fun r => by cases r <;> rfl, rfl⟩
  (closed_staysFresh.after calls ⟨rfl, hstart⟩).2

/-- Whatever calls build a tree, if nodes are used once below the root and there is room for them,
spans nest and parents are right at the end, and nothing else is placed. -/
theorem nested_finish (path : String) (calls : List Call) (root : NodeRef)
    (h : (ofCalls path calls).tree.UsedOnce root)
    (hroom : (ofCalls path calls).tree.totalRoom root ≤ Span.noOffset) :
    ((ofCalls path calls).finish root).Nested root (ofCalls path calls).unplaced :=
  nested_of_fresh _ h (fresh_ofCalls path calls) hroom

/-- An interface with a gap among its members, whose property has its span taken away. Beside it
stands a node that nothing uses, and the document names a node that is not there. -/
def gappedInterface : TreeBuilder := .ofCalls "a.ts"
  [.keywordType .numberKeyword, .propertySignature "x" ∅ (some 0), .ident "lost",
    .interfaceDecl "Foo" ∅ [] [some 2, none], .markUnplaced (some 2),
    .sourceFile [some 5, none, some 99]]

theorem nested_finish_gappedInterface :
    gappedInterface.tree.UsedOnce (some 6) ∧ gappedInterface.tree.totalRoom (some 6) = 22 ∧
      (gappedInterface.finish (some 6)).Nested (some 6) [some 2] := by
  have honce : gappedInterface.tree.UsedOnce (some 6) :=
    .of_nodup _ (by decide +kernel) (by decide +kernel)
  have hroom : gappedInterface.tree.totalRoom (some 6) = 22 := by decide +kernel
  exact ⟨honce, hroom, nested_finish "a.ts" _ (some 6) honce (hroom ▸ by decide)⟩

end TreeBuilder

end NameBinding
