import Mathlib.Algebra.GroupWithZero.Nat
import NameBinding.Proofs.Tree.Built

/-! # Spans nest as the nodes do

Nodes are placed one after the other, each inside the node above it, which becomes its parent. Placing
a part of a tree moves nothing else, as long as no node stands in it twice, and takes the room of all
its nodes.

Main statement: in a tree that is built with each node used once and no span taken away, the nodes
below a node stand in order inside of it, after its own words. -/

namespace NameBinding

namespace DocTree

/-- The nodes at and below a node that are placed, in the order of their starts. -/
def inOrder (t : DocTree) : Nat → NodeRef → List NodeRef
  | 0, _ => []
  | depth + 1, r =>
    if (t.node? r).isSome then r :: (t.children r).flatMap (t.inOrder depth) else []

/-- Nodes stand one after the other between two offsets. Missing nodes take no room. -/
def Tiles (t : DocTree) (span : NodeRef → Span) : Nat → List NodeRef → Nat → Prop
  | lo, [], hi => lo ≤ hi
  | lo, r :: rs, hi =>
    if (t.node? r).isSome then
      lo ≤ (span r).start ∧ (span r).start < (span r).stop ∧ t.Tiles span (span r).stop rs hi
    else t.Tiles span lo rs hi

/-- What is right below the node stands in order inside of it, after its own words. -/
def Neat (t : DocTree) (span : NodeRef → Span) (r : NodeRef) : Prop :=
  t.Tiles span ((span r).start + 1) (t.children r) (span r).stop

/-- What is right below the node stands in order inside of it, after its own words and before its last
place, and has the node as its parent. -/
structure Laid (t s : DocTree) (r : NodeRef) : Prop where
  tiles : t.Tiles s.span ((s.span r).start + 1) (t.children r) ((s.span r).stop - 1)
  parent : ∀ i, some i ∈ t.children r → (t.node? (some i)).isSome → i < t.parents.size →
    s.parent (some i) = r

/-- The nodes of some levels are laid, apart from the last level, below which nothing is placed. -/
def Seated (t s : DocTree) : Nat → NodeRef → Prop
  | 0, _ => True
  | depth + 1, r => (depth ≠ 0 → (t.node? r).isSome → t.Laid s r) ∧
    ∀ c ∈ t.children r, t.Seated s depth c

/-- The node has one span and one parent in both trees. -/
def Stays (s s' : DocTree) (r : NodeRef) : Prop := s'.span r = s.span r ∧ s'.parent r = s.parent r

/-- The room that a node takes for itself: for its words, and one place at its end. -/
def room (t : DocTree) (r : NodeRef) : Nat :=
  ((t.node? r).map fun node => t.width r node.kind + 1).getD 0

/-- The room that some nodes take for themselves. -/
def roomOf (t : DocTree) (rs : List NodeRef) : Nat := (rs.map t.room).sum

/-- The trees have the same nodes below each other, which take the same room. -/
structure SameShape (t s : DocTree) : Prop where
  isSome : ∀ r, (s.node? r).isSome = (t.node? r).isSome
  children : ∀ r, s.children r = t.children r
  room : ∀ r, s.room r = t.room r
  parents : s.parents.size = t.parents.size

variable {t s s' : DocTree} {span span' : NodeRef → Span} {r parent : NodeRef}
  {rs rs' : List NodeRef} {lo lo' hi hi' depth : Nat}

/-! ### Nodes in order -/

namespace Tiles

theorem le (h : t.Tiles span lo rs hi) : lo ≤ hi := by
  induction rs generalizing lo with
  | nil => exact h
  | cons r rs ih =>
      rw [Tiles] at h
      split at h
      · have := ih h.2.2
        omega
      · exact ih h

theorem mono (h : t.Tiles span lo rs hi) (hlo : lo' ≤ lo) (hhi : hi ≤ hi') :
    t.Tiles span lo' rs hi' := by
  induction rs generalizing lo lo' with
  | nil => exact Nat.le_trans hlo (Nat.le_trans h hhi)
  | cons r rs ih =>
      rw [Tiles] at h ⊢
      split
      · next hr =>
        rw [if_pos hr] at h
        exact ⟨Nat.le_trans hlo h.1, h.2.1, ih h.2.2 (Nat.le_refl _)⟩
      · next hr =>
        rw [if_neg hr] at h
        exact ih h hlo

theorem congr (h : t.Tiles span lo rs hi)
    (hspan : ∀ r ∈ rs, (t.node? r).isSome → span' r = span r) : t.Tiles span' lo rs hi := by
  induction rs generalizing lo with
  | nil => exact h
  | cons r rs ih =>
      obtain ⟨hr, hrs⟩ := List.forall_mem_cons.mp hspan
      rw [Tiles] at h ⊢
      split
      · next hnode =>
        rw [if_pos hnode] at h
        rw [hr hnode]
        exact ⟨h.1, h.2.1, ih h.2.2 hrs⟩
      · next hnode =>
        rw [if_neg hnode] at h
        exact ih h hrs

/-- Some of the nodes are in order too. -/
theorem sublist (h : t.Tiles span lo rs hi) (hrs : rs'.Sublist rs) : t.Tiles span lo rs' hi := by
  induction hrs generalizing lo with
  | slnil => exact h
  | @cons rs' rs r _ ih =>
      rw [Tiles] at h
      split at h
      · exact ih (h.2.2.mono (by omega) (Nat.le_refl _))
      · exact ih h
  | @cons_cons rs' rs r _ ih =>
      rw [Tiles] at h ⊢
      split
      · next hr =>
        rw [if_pos hr] at h
        exact ⟨h.1, h.2.1, ih h.2.2⟩
      · next hr =>
        rw [if_neg hr] at h
        exact ih h

theorem of_filter_isSome (h : t.Tiles span lo (rs.filter fun r => r.isSome) hi) :
    t.Tiles span lo rs hi := by
  induction rs generalizing lo with
  | nil => exact h
  | cons r rs ih =>
      cases r with
      | none =>
          rw [Tiles, if_neg (by simp [node?])]
          exact ih h
      | some i =>
          rw [List.filter_cons_of_pos (by rfl), Tiles] at h
          rw [Tiles]
          split
          · next hr =>
            rw [if_pos hr] at h
            exact ⟨h.1, h.2.1, ih h.2.2⟩
          · next hr =>
            rw [if_neg hr] at h
            exact ih h

/-- One of the nodes stands between the offsets. -/
theorem bounds (h : t.Tiles span lo rs hi) (hr : r ∈ rs) (hnode : (t.node? r).isSome) :
    lo ≤ (span r).start ∧ (span r).start < (span r).stop ∧ (span r).stop ≤ hi := by
  have hone := h.sublist (List.singleton_sublist.mpr hr)
  rw [Tiles, if_pos hnode] at hone
  exact hone

/-- Of two of the nodes, the first one ends before the second one starts. -/
theorem pairwise (h : t.Tiles span lo rs hi) : rs.Pairwise fun c d =>
    (t.node? c).isSome → (t.node? d).isSome → (span c).stop ≤ (span d).start := by
  induction rs generalizing lo with
  | nil => exact .nil
  | cons r rs ih =>
      rw [Tiles] at h
      split at h
      · exact .cons (fun d hd _ hnode => (h.2.2.bounds hd hnode).1) (ih h.2.2)
      · next hr => exact .cons (fun _ _ hnode => absurd hnode hr) (ih h)

end Tiles

theorem Laid.neat (h : t.Laid s r) : t.Neat s.span r :=
  h.tiles.mono (Nat.le_refl _) (Nat.sub_le _ _)

theorem inOrder_eq_nil (hr : ¬(t.node? r).isSome) : t.inOrder depth r = [] := by
  cases depth with
  | zero => rfl
  | succ depth => rw [inOrder, if_neg hr]

theorem mem_inOrder_self (hdepth : depth ≠ 0) (hr : (t.node? r).isSome) :
    r ∈ t.inOrder depth r := by
  obtain ⟨depth, rfl⟩ := Nat.exists_eq_succ_of_ne_zero hdepth
  rw [Nat.succ_eq_add_one, inOrder, if_pos hr]
  exact List.mem_cons_self

theorem isSome_of_mem_children {c : NodeRef} (hc : c ∈ t.children r) : (t.node? r).isSome := by
  by_contra hnone
  rw [children_eq_nil (by simpa using hnone)] at hc
  exact absurd hc List.not_mem_nil

theorem mem_inOrder_of_child {c x : NodeRef} (hc : c ∈ t.children r) (hx : x ∈ t.inOrder depth c) :
    x ∈ t.inOrder (depth + 1) r := by
  rw [inOrder, if_pos (isSome_of_mem_children hc)]
  exact List.mem_cons_of_mem _ (List.mem_flatMap.mpr ⟨c, hc, hx⟩)

theorem isSome_of_mem_inOrder {x : NodeRef} (hx : x ∈ t.inOrder depth r) :
    (t.node? x).isSome := by
  induction depth generalizing r with
  | zero => exact absurd hx List.not_mem_nil
  | succ depth ih =>
      rw [inOrder] at hx
      split at hx
      · next hr =>
        rcases List.mem_cons.mp hx with rfl | hx
        · exact hr
        · obtain ⟨c, -, hx⟩ := List.mem_flatMap.mp hx
          exact ih hx
      · exact absurd hx List.not_mem_nil

/-- By induction on the levels. -/
theorem Seated.congr (h : t.Seated s depth r) (hstays : ∀ x ∈ t.inOrder depth r, s.Stays s' x) :
    t.Seated s' depth r := by
  induction depth generalizing r with
  | zero => exact True.intro
  | succ depth ih =>
      refine ⟨fun hdepth hr => ?_, fun c hc =>
        ih (h.2 c hc) fun x hx => hstays x (mem_inOrder_of_child hc hx)⟩
      have hself := (hstays r (mem_inOrder_self (Nat.succ_ne_zero _) hr)).1
      have hchild : ∀ c ∈ t.children r, (t.node? c).isSome → s.Stays s' c := fun c hc hnode =>
        hstays c (mem_inOrder_of_child hc (mem_inOrder_self hdepth hnode))
      obtain ⟨htiles, hparent⟩ := h.1 hdepth hr
      refine ⟨?_, fun i hi hnode hlt => (hchild _ hi hnode).2.trans (hparent i hi hnode hlt)⟩
      rw [hself]
      exact htiles.congr fun c hc hnode => (hchild c hc hnode).1

/-! ### Placing -/

theorem Stays.trans {s'' : DocTree} (h : s.Stays s' r) (h' : s'.Stays s'' r) : s.Stays s'' r :=
  ⟨h'.1.trans h.1, h'.2.trans h.2⟩

theorem SameShape.refl (t : DocTree) : t.SameShape t :=
  ⟨fun _ => rfl, fun _ => rfl, fun _ => rfl, rfl⟩

theorem SameShape.setParent (h : t.SameShape s) (i : NodeIndex) (parent : NodeRef) :
    t.SameShape (s.setParent i parent) :=
  ⟨h.isSome, h.children, h.room, Array.size_modify.trans h.parents⟩

theorem parent_setParent (s : DocTree) (i : NodeIndex) (parent r : NodeRef) :
    (s.setParent i parent).parent r =
      if r = some i ∧ i < s.parents.size then parent else s.parent r := by
  cases r with
  | none => rfl
  | some j =>
      simp only [DocTree.parent, DocTree.setParent, Option.bind_some, Array.getElem?_modify,
        Option.some.injEq, eq_comm (a := i)]
      by_cases hj : j = i
      · subst hj
        by_cases hlt : j < s.parents.size <;> simp [hlt]
      · simp [hj]

theorem stays_setParent (s : DocTree) {i : NodeIndex} (parent : NodeRef) (hr : r ≠ some i) :
    s.Stays (s.setParent i parent) r :=
  ⟨rfl, by rw [parent_setParent, if_neg fun hi => hr hi.1]⟩

theorem node?_setSpan (s : DocTree) (i : NodeIndex) (value : Span) (r : NodeRef) :
    (s.setSpan i value).node? r =
      if r = some i then (s.node? r).map fun n => { n with span := value } else s.node? r := by
  cases r with
  | none => rfl
  | some j =>
      simp only [node?, DocTree.setSpan, Option.bind_some, Array.getElem?_modify, Option.some.injEq,
        eq_comm (a := i)]

theorem room_setSpan (s : DocTree) (i : NodeIndex) (value : Span) (r : NodeRef) :
    (s.setSpan i value).room r = s.room r := by
  have hwidth : (s.setSpan i value).width r = s.width r := by
    funext kind
    simp only [width, text?, record?_setSpan]
  rw [room, room, hwidth, node?_setSpan]
  split
  · cases s.node? r <;> rfl
  · rfl

theorem SameShape.setSpan (h : t.SameShape s) (i : NodeIndex) (value : Span) :
    t.SameShape (s.setSpan i value) := by
  refine ⟨fun r => ?_, fun r => ?_, fun r => (room_setSpan s i value r).trans (h.room r), h.parents⟩
  · rw [← h.isSome r, node?_setSpan]
    split <;> simp
  · rw [← h.children r, DocTree.children, record?_setSpan]
    rfl

theorem span_setSpan (s : DocTree) (i : NodeIndex) (value : Span) (r : NodeRef) :
    (s.setSpan i value).span r =
      if r = some i ∧ (s.node? r).isSome then value else s.span r := by
  rw [span, span, node?_setSpan]
  by_cases hr : r = some i
  · cases hnode : s.node? r <;> simp [hr]
  · simp [hr]

theorem stays_setSpan (s : DocTree) {i : NodeIndex} (value : Span) (hr : r ≠ some i) :
    s.Stays (s.setSpan i value) r :=
  ⟨by rw [span_setSpan, if_neg fun hi => hr hi.1], rfl⟩

theorem width_pos (s : DocTree) (r : NodeRef) (kind : NodeKind) : 0 < s.width r kind := by
  unfold width
  split
  · cases s.text? r <;> simp
  · cases s.text? r <;> simp
  · cases NodeKind.keywordText kind <;> simp

theorem roomOf_append (t : DocTree) (rs rs' : List NodeRef) :
    t.roomOf (rs ++ rs') = t.roomOf rs + t.roomOf rs' := by
  rw [roomOf, List.map_append, List.sum_append]
  rfl

/-- A node takes room. -/
theorem roomOf_inOrder_pos (hdepth : depth ≠ 0) (hr : (t.node? r).isSome) :
    0 < t.roomOf (t.inOrder depth r) := by
  obtain ⟨depth, rfl⟩ := Nat.exists_eq_succ_of_ne_zero hdepth
  obtain ⟨node, hnode⟩ := Option.isSome_iff_exists.mp hr
  have hroom : t.room r = t.width r node.kind + 1 := by rw [room, hnode]; rfl
  rw [Nat.succ_eq_add_one, inOrder, if_pos hr, roomOf, List.map_cons, List.sum_cons, hroom]
  omega

/-- What placing a node below a parent does to a tree. -/
structure Places (t : DocTree) (depth : Nat) (parent r : NodeRef) (s : DocTree) (start : Nat)
    (placed : DocTree × Nat) : Prop where
  shape : t.SameShape placed.1
  stop : placed.2 = start + t.roomOf (t.inOrder depth r)
  frame : ∀ x, x ∉ t.inOrder depth r → s.Stays placed.1 x
  span : depth ≠ 0 → (t.node? r).isSome → placed.1.span r = ⟨start, placed.2⟩
  parent : depth ≠ 0 → ∀ i ∈ r, (t.node? r).isSome → i < t.parents.size →
    placed.1.parent r = parent
  seated : t.Seated placed.1 depth r

/-- What placing some nodes, one after the other, below a parent does to a tree. -/
structure PlacesAll (t : DocTree) (depth : Nat) (parent : NodeRef) (rs : List NodeRef) (s : DocTree)
    (start : Nat) (placed : DocTree × Nat) : Prop where
  shape : t.SameShape placed.1
  stop : placed.2 = start + t.roomOf (rs.flatMap (t.inOrder depth))
  frame : ∀ x, x ∉ rs.flatMap (t.inOrder depth) → s.Stays placed.1 x
  tiles : depth ≠ 0 → t.Tiles placed.1.span start rs placed.2
  parent : depth ≠ 0 → ∀ i, some i ∈ rs → (t.node? (some i)).isSome → i < t.parents.size →
    placed.1.parent (some i) = parent
  seated : ∀ c ∈ rs, t.Seated placed.1 depth c

theorem PlacesAll.cons {start : Nat} {placed placed' : DocTree × Nat}
    (hnodup : ((r :: rs).flatMap (t.inOrder depth)).Nodup)
    (h : t.Places depth parent r s start placed)
    (hs : t.PlacesAll depth parent rs placed.1 placed.2 placed') :
    t.PlacesAll depth parent (r :: rs) s start placed' := by
  rw [List.flatMap_cons, List.nodup_append] at hnodup
  have hkept : ∀ x ∈ t.inOrder depth r, placed.1.Stays placed'.1 x := fun x hx =>
    hs.frame x fun hmem => hnodup.2.2 x hx x hmem rfl
  refine ⟨hs.shape, ?_, fun x hx => ?_, fun hdepth => ?_, fun hdepth i hi hnode hlt => ?_,
    List.forall_mem_cons.mpr ⟨h.seated.congr hkept, hs.seated⟩⟩
  · rw [List.flatMap_cons, roomOf_append, ← Nat.add_assoc, ← h.stop]
    exact hs.stop
  · rw [List.flatMap_cons, List.mem_append, not_or] at hx
    exact (h.frame x hx.1).trans (hs.frame x hx.2)
  · rw [Tiles]
    split
    · next hr =>
      have hlt : start < placed.2 := h.stop ▸ Nat.lt_add_of_pos_right (roomOf_inOrder_pos hdepth hr)
      rw [(hkept r (mem_inOrder_self hdepth hr)).1, h.span hdepth hr]
      exact ⟨Nat.le_refl _, hlt, hs.tiles hdepth⟩
    · next hr =>
      have hsame : placed.2 = start := by rw [h.stop, inOrder_eq_nil hr]; rfl
      exact hsame ▸ hs.tiles hdepth
  · rcases List.mem_cons.mp hi with rfl | hi
    · rw [(hkept _ (mem_inOrder_self hdepth hnode)).2]
      exact h.parent hdepth i rfl hnode hlt
    · exact hs.parent hdepth i hi hnode hlt

theorem placesAll_foldl
    (hplace : ∀ {r s start}, t.SameShape s → (t.inOrder depth r).Nodup →
      t.Places depth parent r s start (place depth parent (s, start) r)) (start : Nat)
    (h : t.SameShape s) (hnodup : (rs.flatMap (t.inOrder depth)).Nodup) :
    t.PlacesAll depth parent rs s start (rs.foldl (place depth parent) (s, start)) := by
  induction rs generalizing s start with
  | nil =>
      exact ⟨h, rfl, fun _ _ => ⟨rfl, rfl⟩, fun _ => Nat.le_refl _, fun _ _ hi => by simp at hi,
        fun _ hc => by simp at hc⟩
  | cons r rs ih =>
      have hparts := hnodup
      rw [List.flatMap_cons, List.nodup_append] at hparts
      have hfirst : t.Places depth parent r s start (place depth parent (s, start) r) :=
        hplace h hparts.1
      exact .cons hnodup hfirst (ih _ hfirst.shape hparts.2.1)

theorem Places.of_missing (h : t.SameShape s) (hr : ¬(t.node? r).isSome) (depth start : Nat) :
    t.Places depth parent r s start (s, start) := by
  have hseated : t.Seated s depth r := by
    cases depth with
    | zero => trivial
    | succ depth =>
        refine ⟨fun _ hsome => absurd hsome hr, fun c hc => ?_⟩
        rw [children_eq_nil (by simpa using hr)] at hc
        exact absurd hc List.not_mem_nil
  exact ⟨h, by rw [inOrder_eq_nil hr]; rfl, fun _ _ => ⟨rfl, rfl⟩, fun _ hsome => absurd hsome hr,
    fun _ _ _ hsome => absurd hsome hr, hseated⟩

/-- A node is placed around what is placed below it. -/
theorem PlacesAll.around {i : NodeIndex} {start first : Nat} {placed : DocTree × Nat}
    (hshape : t.SameShape s) (hr : (t.node? (some i)).isSome)
    (hnodup : (t.inOrder (depth + 1) (some i)).Nodup) (hlo : start < first)
    (hfirst : first + 1 = start + t.room (some i))
    (h : t.PlacesAll depth (some i) (t.children (some i)) (s.setParent i parent) first placed) :
    t.Places (depth + 1) parent (some i) s start
      (placed.1.setSpan i ⟨start, placed.2 + 1⟩, placed.2 + 1) := by
  have hlevel := inOrder.eq_2 t (some i) depth
  rw [if_pos hr] at hlevel
  rw [hlevel, List.nodup_cons] at hnodup
  have hself : (placed.1.setSpan i ⟨start, placed.2 + 1⟩).span (some i) =
      ⟨start, placed.2 + 1⟩ := by
    rw [span_setSpan, if_pos ⟨rfl, (h.shape.isSome _).trans hr⟩]
  have hinside : ∀ c ∈ t.children (some i), ∀ x ∈ t.inOrder depth c,
      placed.1.Stays (placed.1.setSpan i ⟨start, placed.2 + 1⟩) x := fun c hc x hx =>
    stays_setSpan _ _ fun heq => hnodup.1 (List.mem_flatMap.mpr ⟨c, hc, heq ▸ hx⟩)
  have hchild : depth ≠ 0 → ∀ c ∈ t.children (some i), (t.node? c).isSome →
      placed.1.Stays (placed.1.setSpan i ⟨start, placed.2 + 1⟩) c := fun hdepth c hc hnode =>
    hinside c hc c (mem_inOrder_self hdepth hnode)
  refine ⟨h.shape.setSpan _ _, ?_, fun x hx => ?_, fun _ _ => hself, fun _ j hj _ hlt => ?_,
    fun hdepth _ => ⟨?_, fun j hj hnode hlt => ?_⟩,
    fun c hc => (h.seated c hc).congr (hinside c hc)⟩
  · rw [hlevel, roomOf, List.map_cons, List.sum_cons]
    change placed.2 + 1 = start + (t.room (some i) + t.roomOf _)
    rw [h.stop]
    omega
  · rw [hlevel, List.mem_cons, not_or] at hx
    exact ((stays_setParent s parent hx.1).trans (h.frame x hx.2)).trans (stays_setSpan _ _ hx.1)
  · obtain rfl : i = j := Option.some.inj hj
    refine (h.frame (some i) hnodup.1).2.trans ?_
    rw [parent_setParent, if_pos ⟨rfl, hshape.parents ▸ hlt⟩]
  · rw [hself]
    exact ((h.tiles hdepth).congr fun c hc hnode => (hchild hdepth c hc hnode).1).mono hlo
      (Nat.le_refl _)
  · exact (hchild hdepth _ hj hnode).2.trans (h.parent hdepth j hj hnode hlt)

/-- By induction on the levels. Nodes that stand in the tree once are not moved again. -/
theorem places_place {start : Nat} (h : t.SameShape s) (hnodup : (t.inOrder depth r).Nodup) :
    t.Places depth parent r s start (place depth parent (s, start) r) := by
  induction depth generalizing parent r s start with
  | zero =>
      exact ⟨h, rfl, fun _ _ => ⟨rfl, rfl⟩, fun hdepth => absurd rfl hdepth,
        fun hdepth => absurd rfl hdepth, True.intro⟩
  | succ depth ih =>
      by_cases hr : (t.node? r).isSome
      · obtain ⟨node, hnode⟩ := Option.isSome_iff_exists.mp ((h.isSome r).trans hr)
        obtain ⟨i, rfl, -⟩ := Option.bind_eq_some_iff.mp hnode
        have hchildren := hnodup
        rw [inOrder, if_pos hr, List.nodup_cons] at hchildren
        let first := start + s.width (some i) node.kind
        have hall : t.PlacesAll depth (some i) (t.children (some i)) (s.setParent i parent) first
            ((t.children (some i)).foldl (place depth (some i)) (s.setParent i parent, first)) :=
          placesAll_foldl (fun h hnodup => ih h hnodup) first (h.setParent i parent) hchildren.2
        have hlo : start < first := Nat.lt_add_of_pos_right (s.width_pos (some i) node.kind)
        have hfirst : first + 1 = start + t.room (some i) := by
          rw [← h.room, room, hnode]
          rfl
        simp only [place, hnode, h.children]
        exact hall.around h hr hnodup hlo hfirst
      · have hnone : s.node? r = none := by
          rw [← Option.not_isSome_iff_eq_none, h.isSome r]
          exact hr
        have hout : place (depth + 1) parent (s, start) r = (s, start) := by
          cases r <;> simp [place, hnone]
        rw [hout]
        exact .of_missing h hr _ _

/-! ### Each node once -/

theorem inOrder_sublist_of_child (depth : Nat) {c : NodeRef} (hc : c ∈ t.children r) :
    (t.inOrder depth c).Sublist ((t.children r).flatMap (t.inOrder depth)) := by
  rw [List.flatMap_def]
  exact List.sublist_flatten_of_mem (List.mem_map_of_mem hc)

/-- The way down to a node, and what is placed below it. Nothing stands on it twice, so it ends before
the levels do. -/
structure OnWay (t s : DocTree) (root : NodeRef) (depth : Nat) (above : List NodeRef) (r : NodeRef) :
    Prop where
  levels : depth + above.length = t.size + 1
  nodup : (above ++ t.inOrder depth r).Nodup
  present : ∀ a ∈ above, (t.node? a).isSome
  placed : t.inOrder depth r ⊆ t.inOrder (t.size + 1) root
  seated : t.Seated s depth r

namespace OnWay

variable {root : NodeRef} {above : List NodeRef}

/-- More than one level is left at a node that is there. -/
theorem exists_depth (h : t.OnWay s root depth above r) (hr : (t.node? r).isSome) :
    ∃ more, depth = more + 2 := by
  have hlength := length_le_size h.nodup (List.forall_mem_append.mpr
    ⟨h.present, fun x hx => isSome_of_mem_inOrder hx⟩)
  have hlevels := h.levels
  rw [List.length_append] at hlength
  match depth, hlevels, hlength with
  | 0, hlevels, hlength => omega
  | 1, hlevels, hlength =>
      rw [inOrder, if_pos hr, List.length_cons] at hlength
      omega
  | more + 2, _, _ => exact ⟨more, rfl⟩

theorem child (h : t.OnWay s root depth above r) {c : NodeRef} (hc : c ∈ t.children r) :
    ∃ more, t.OnWay s root more (r :: above) c := by
  have hr := isSome_of_mem_children hc
  obtain ⟨more, rfl⟩ := h.exists_depth hr
  have hnodup := h.nodup
  have hplaced := h.placed
  rw [inOrder, if_pos hr] at hnodup hplaced
  have hsub := inOrder_sublist_of_child (more + 1) hc
  refine ⟨more + 1, by rw [List.length_cons]; have := h.levels; omega, ?_, ?_, ?_, h.seated.2 c hc⟩
  · exact (List.perm_middle.nodup_iff.mp hnodup).sublist
      ((List.Sublist.refl _).append hsub |>.cons_cons r)
  · exact List.forall_mem_cons.mpr ⟨hr, h.present⟩
  · exact fun x hx => hplaced (List.mem_cons_of_mem _ (hsub.subset hx))

end OnWay

/-- By induction on the way down. -/
theorem exists_onWay {root : NodeRef} (hnodup : (t.inOrder (t.size + 1) root).Nodup)
    (hseated : t.Seated s (t.size + 1) root) (hr : r = root ∨ t.Below r root) :
    ∃ depth above, t.OnWay s root depth above r := by
  have htop : t.OnWay s root (t.size + 1) [] root :=
    ⟨rfl, by simpa using hnodup, fun _ ha => absurd ha List.not_mem_nil, fun _ hx => hx, hseated⟩
  rcases hr with rfl | hr
  · exact ⟨_, _, htop⟩
  · induction hr using Relation.TransGen.head_induction_on with
    | single hc =>
        obtain ⟨more, h⟩ := htop.child hc
        exact ⟨_, _, h⟩
    | head hc _ ih =>
        obtain ⟨depth, above, h⟩ := ih
        obtain ⟨more, h⟩ := h.child hc
        exact ⟨_, _, h⟩

/-- If no node is used twice, all nodes below the root are placed, and are laid. -/
theorem laid_layout {root : NodeRef} (h : t.SameShape s) (hsize : s.size = t.size)
    (hnodup : (t.inOrder (t.size + 1) root).Nodup) (hr : r = root ∨ t.Below r root)
    (hnode : (t.node? r).isSome) :
    r ∈ t.inOrder (t.size + 1) root ∧ t.Laid (s.layout root) r := by
  have hplaces : t.Places (t.size + 1) none root s 0 (place (t.size + 1) none (s, 0) root) :=
    places_place h hnodup
  have hseated := hplaces.seated
  rw [layout, hsize]
  obtain ⟨depth, above, hway⟩ := exists_onWay hnodup hseated hr
  obtain ⟨more, rfl⟩ := hway.exists_depth hnode
  exact ⟨hway.placed (mem_inOrder_self (Nat.succ_ne_zero _) hnode),
    hway.seated.1 (Nat.succ_ne_zero _) hnode⟩

/-- Taking spans away does not move what keeps its span. -/
theorem span_withoutSpans (s : DocTree) (marked : List NodeRef) (r : NodeRef) :
    (s.withoutSpans marked).span r = s.span r ∨ (s.withoutSpans marked).span r = Span.invalid := by
  induction marked generalizing s with
  | nil => exact .inl rfl
  | cons m marked ih =>
      cases m with
      | none => exact ih s
      | some i =>
          refine (ih (s.setSpan i Span.invalid)).elim (fun h => ?_) .inr
          rw [span_setSpan] at h
          split at h
          · exact .inr h
          · exact .inl h

theorem span_withoutSpans_of_not_mem (s : DocTree) {marked : List NodeRef} (hr : r ∉ marked) :
    (s.withoutSpans marked).span r = s.span r := by
  induction marked generalizing s with
  | nil => rfl
  | cons m marked ih =>
      obtain ⟨hm, hmarked⟩ := not_or.mp (List.mem_cons.not.mp hr)
      cases m with
      | none => exact ih s hmarked
      | some i => exact (ih (s.setSpan i Span.invalid) hmarked).trans (s.stays_setSpan _ hm).1

/-- Each node below the root is used once, and has its span. -/
structure PlacedOnce (t : DocTree) (root : NodeRef) : Prop where
  once : (t.inOrder (t.size + 1) root).Nodup
  valid : ∀ r ∈ t.inOrder (t.size + 1) root, (t.span r).isValid

end DocTree

namespace TreeBuilder

open DocTree

variable (b : TreeBuilder) (root : NodeRef)

theorem size_finish : (b.finish root).size = b.tree.size :=
  b.finish_invariant root (fun _ _ _ => rfl) fun _ _ _ => Array.size_modify

theorem sameShape_finish : (b.finish root).SameShape b.tree := by
  refine ⟨fun r => ?_, fun r => ?_, fun r => ?_, ?_⟩
  · have hspan : ∀ (s : DocTree) i value,
        ((s.setSpan i value).node? r).isSome = (s.node? r).isSome := fun s i value => by
      rw [node?_setSpan]
      split <;> simp
    exact (b.finish_invariant root (f := fun s => (s.node? r).isSome) (fun _ _ _ => rfl) hspan).symm
  · rw [children, children, record?_finish]
  · exact (b.finish_invariant root (f := (·.room r)) (fun _ _ _ => rfl)
      fun s i value => room_setSpan s i value r).symm
  · exact (b.finish_invariant root (f := (·.parents.size)) (fun _ _ _ => Array.size_modify)
      fun _ _ _ => rfl).symm

variable {b root} {r : NodeRef}

/-- In what is built with each node used once, what is below a node stands in order inside of it. -/
theorem neat_finish (h : (b.finish root).PlacedOnce root)
    (hr : r = root ∨ (b.finish root).Below r root) (hnode : ((b.finish root).node? r).isSome) :
    ((b.finish root).span r).isValid ∧ (b.finish root).Neat (b.finish root).span r := by
  let t := b.finish root
  have hlaid : ∀ {x}, (x = root ∨ t.Below x root) → (t.node? x).isSome →
      x ∈ t.inOrder (t.size + 1) root ∧ t.Neat (b.tree.layout root).span x :=
    fun hx hnode =>
      (laid_layout (b.sameShape_finish root) (b.size_finish root).symm h.once hx hnode).imp_right
        Laid.neat
  have hkept : ∀ {x}, (x = root ∨ t.Below x root) → (t.node? x).isSome →
      t.span x = (b.tree.layout root).span x := by
    intro x hx hnode
    have hvalid : (t.span x).isValid := h.valid x (hlaid hx hnode).1
    refine (span_withoutSpans _ b.unplaced x).resolve_right fun hinvalid => ?_
    rw [show t.span x = Span.invalid from hinvalid] at hvalid
    exact absurd hvalid (by decide)
  obtain ⟨hmem, hneat⟩ := hlaid hr hnode
  refine ⟨h.valid r hmem, ?_⟩
  rw [Neat, ← hkept hr hnode] at hneat
  refine Tiles.congr hneat fun c hc hcnode => hkept (.inr ?_) hcnode
  rcases hr with rfl | hr
  · exact .single hc
  · exact .head hc hr

end TreeBuilder

end NameBinding
