import Mathlib.Data.List.Nodup
import Mathlib.Data.Nat.Find
import NameBinding.Graph.Visit
import NameBinding.Graph.WellKnown
import NameBinding.Proofs.Graph.Edits

/-! # Walks with a visitor

The queue of a walk holds one level and what was found of the next one. So the walk goes level by
level, and each element comes with the fewest steps that lead to it. A visitor only decides where the
walk ends. Main statement: which symbols a walk along bases visits, and in which order. -/

namespace NameBinding

namespace Walk

variable {α σ : Type} {next : α → List α} {limit : Nat}

/-! ### Numbers of steps -/

/-- As many steps lead from the first element to the second. -/
inductive Steps (r : α → α → Prop) : Nat → α → α → Prop
  | nil (a : α) : Steps r 0 a a
  | cons {n : Nat} {a b c : α} (hab : r a b) (hbc : Steps r n b c) : Steps r (n + 1) a c

/-- The fewest steps that lead from the first element to the second. -/
def Distance (r : α → α → Prop) (n : Nat) (a b : α) : Prop :=
  Steps r n a b ∧ ∀ m, Steps r m a b → n ≤ m

section Distance

variable {r : α → α → Prop} {m n : Nat} {a b c : α}

theorem Steps.snoc (h : Steps r n a b) (hbc : r b c) : Steps r (n + 1) a c := by
  induction h with
  | nil => exact .cons hbc (.nil _)
  | cons hab _ ih => exact .cons hab (ih hbc)

theorem Steps.exists_snoc (h : Steps r (n + 1) a c) : ∃ b, Steps r n a b ∧ r b c := by
  induction n generalizing a with
  | zero =>
      cases h with
      | cons hab hbc =>
        cases hbc
        exact ⟨_, .nil _, hab⟩
  | succ n ih =>
      cases h with
      | cons hab hbc =>
        obtain ⟨d, hd, hdc⟩ := ih hbc
        exact ⟨d, .cons hab hd, hdc⟩

theorem Steps.exists_distance (h : Steps r n a b) : ∃ m ≤ n, Distance r m a b := by
  classical
  have hex : ∃ m, Steps r m a b := ⟨n, h⟩
  exact ⟨Nat.find hex, Nat.find_min' hex h, Nat.find_spec hex, fun m hm => Nat.find_min' hex hm⟩

theorem Distance.unique (h : Distance r m a b) (h' : Distance r n a b) : m = n :=
  Nat.le_antisymm (h.2 n h'.1) (h'.2 m h.1)

/-- The last step of a shortest way comes after a shortest way. -/
theorem Distance.exists_pred (h : Distance r (n + 1) a c) : ∃ b, Distance r n a b ∧ r b c := by
  obtain ⟨b, hb, hbc⟩ := h.1.exists_snoc
  refine ⟨b, ⟨hb, fun m hm => ?_⟩, hbc⟩
  have hle := h.2 (m + 1) (hm.snoc hbc)
  omega

/-- Something is at each distance on a shortest way. -/
theorem Distance.exists_of_le (h : Distance r n a c) (hmn : m ≤ n) : ∃ b, Distance r m a b := by
  induction n generalizing c with
  | zero => exact ⟨c, Nat.le_zero.mp hmn ▸ h⟩
  | succ n ih =>
      rcases Nat.lt_or_eq_of_le hmn with hlt | rfl
      · obtain ⟨b, hb, -⟩ := h.exists_pred
        exact ih hb (Nat.le_of_lt_succ hlt)
      · exact ⟨c, h⟩

end Distance

/-! ### A visitor only ends a walk -/

/-- A visitor without a state goes on up to its first stop. -/
theorem visitList_eq_untilStop (stop : α → Bool) (list : List α) :
    (visitList (fun _ a => ((), stop a)) list ()).1 = untilStop stop list := by
  induction list with
  | nil => rfl
  | cons a rest ih => cases h : stop a <;> simp [visitList, untilStop, h, ih]

/-- A visitor that looks for something keeps what it finds. -/
theorem visitList_findSome? {β : Type} (find : α → Option β) (list : List α) :
    (visitList (fun _ a => (find a, (find a).isSome)) list none).2 = list.findSome? find := by
  induction list with
  | nil => rfl
  | cons a rest ih => cases h : find a <;> simp [visitList, h, ih]

/-- A visitor that never stops changes its state all along. -/
theorem visitList_foldl (step : σ → α → σ) (list : List α) (s : σ) :
    (visitList (fun s a => (step s a, false)) list s).2 = list.foldl step s := by
  induction list generalizing s with
  | nil => rfl
  | cons a rest ih => simp [visitList, ih]

variable [BEq α]

/-- A visitor that looks for one element finds it if it is there. -/
theorem visitList_found [LawfulBEq α] (target : α) (list : List α) :
    (visitList (fun _ a => (a == target, a == target)) list false).2 = list.contains target := by
  induction list with
  | nil => rfl
  | cons a rest ih =>
      rw [List.contains_cons, BEq.comm]
      cases h : a == target <;> simp [visitList, h, ih]

/-- By induction on the walk. The queue and what was seen do not depend on the visitor. -/
theorem tour_eq_visitList (visit : Visitor σ α) (queue : List (α × Nat)) (seen : List α) (s : σ) :
    tour next limit visit queue seen s =
      visitList visit (tour next limit .never queue seen ()).1 s := by
  fun_induction tour next limit visit queue seen s with
  | case1 => simp [tour, visitList]
  | case2 a steps queue seen s hseen ih =>
      rw [tour, if_pos hseen, ih]
  | case3 a steps queue seen s hseen s' hvisit =>
      rw [tour, if_neg hseen]
      simp [Visitor.never, visitList, hvisit]
  | case4 a steps queue seen s hseen s' hvisit visited last hrest ih =>
      rw [tour, if_neg hseen]
      simp only [Visitor.never, visitList, hvisit]
      rw [← ih, hrest]

/-! ### The queue holds one level and a part of the next -/

variable [LawfulBEq α]

/-- What was seen matters, and not in which order. -/
theorem tour_congr (visit : Visitor σ α) (queue : List (α × Nat)) {seen seen' : List α} (s : σ)
    (h : ∀ a, a ∈ seen ↔ a ∈ seen') :
    tour next limit visit queue seen s = tour next limit visit queue seen' s := by
  fun_induction tour next limit visit queue seen s generalizing seen' with
  | case1 => rw [tour]
  | case2 a steps queue seen s hseen ih =>
      have hseen' : seen'.contains a := by simpa [h] using hseen
      rw [tour, if_pos hseen', ih h]
  | case3 a steps queue seen s hseen s' hvisit =>
      have hseen' : ¬seen'.contains a := by simpa [h] using hseen
      rw [tour, if_neg hseen', hvisit]
  | case4 a steps queue seen s hseen s' hvisit visited last hrest ih =>
      have hseen' : ¬seen'.contains a := by simpa [h] using hseen
      have hcons : ∀ b, b ∈ a :: seen ↔ b ∈ a :: seen' := fun b => by simp [h]
      rw [tour, if_neg hseen', hvisit]
      simp only
      rw [← ih hcons, hrest]

/-- What one step leads to while the limit is not reached. -/
def more (next : α → List α) (limit steps : Nat) (a : α) : List α :=
  if steps < limit then next a else []

omit [BEq α] [LawfulBEq α] in
theorem onward_eq_map_more (a : α) (steps : Nat) :
    onward next limit a steps = (more next limit steps a).map fun b => (b, steps + 1) := by
  unfold onward more
  split <;> rfl

/-- By induction on the level. What is new in it is visited, and what it leads to is put at the
end. -/
theorem tour_level (next : α → List α) (limit steps : Nat) (level pending seen : List α) :
    (tour next limit .never
        (level.map (fun a => (a, steps)) ++ pending.map fun a => (a, steps + 1)) seen ()).1 =
      (level.filter (!seen.contains ·)).eraseDups ++
        (tour next limit .never
          ((pending ++ (level.filter (!seen.contains ·)).eraseDups.flatMap
            (more next limit steps)).map fun a => (a, steps + 1))
          (seen ++ (level.filter (!seen.contains ·)).eraseDups) ()).1 := by
  induction level generalizing pending seen with
  | nil => simp
  | cons a level ih =>
      rw [List.map_cons, List.cons_append, tour]
      by_cases ha : seen.contains a
      · rw [if_pos ha, ih]
        simp only [List.filter_cons, ha, Bool.not_true, Bool.false_eq_true, if_false]
      · have hfresh : ((a :: level).filter (!seen.contains ·)).eraseDups =
            a :: (level.filter (!(a :: seen).contains ·)).eraseDups := by
          rw [List.filter_cons, if_pos (by simpa using ha), List.eraseDups_cons, List.filter_filter]
          congr 3
          funext b
          simp
        rw [if_neg ha, onward_eq_map_more, List.append_assoc, ← List.map_append, hfresh]
        simp only [Visitor.never]
        rw [ih, List.flatMap_cons, List.append_assoc, List.cons_append]
        congr 2
        refine congrArg Prod.fst (tour_congr _ _ _ fun b => ?_)
        simp [or_left_comm]

/-- By induction on the steps that are left. -/
theorem levels_eq_tour {steps left : Nat} (hlimit : steps + left = limit) (seen level : List α) :
    levels next left seen level = seen ++ (tour next limit .never
      ((level.flatMap (more next limit steps)).map fun a => (a, steps + 1)) seen ()).1 := by
  induction left generalizing steps seen level with
  | zero =>
      have hnone : level.flatMap (more next limit steps) = [] :=
        List.flatMap_eq_nil_iff.mpr fun a _ => if_neg (by omega)
      rw [hnone, List.map_nil, tour, List.append_nil, levels]
  | succ left ih =>
      have hmore : more next limit steps = next := by
        funext a
        rw [more, if_pos (by omega)]
      have hlevel := tour_level next limit (steps + 1) (level.flatMap next) [] seen
      simp only [List.map_nil, List.append_nil, List.nil_append] at hlevel
      rw [← nextLevel] at hlevel
      rw [hmore, hlevel, levels, ← List.append_assoc]
      split
      · next hempty =>
        rw [List.isEmpty_iff] at hempty
        rw [hempty, List.flatMap_nil, List.map_nil, tour, List.append_nil, List.append_nil]
      · exact ih (by omega) _ _

/-- A walk that goes on everywhere visits what the walk level by level finds, in the same order. -/
theorem tour_eq_reach (roots : List α) :
    (tour next limit .never (roots.map fun a => (a, 0)) [] ()).1 = reach next limit roots := by
  have hlevel := tour_level next limit 0 roots [] []
  have hall : roots.filter (fun a => !([] : List α).contains a) = roots :=
    List.filter_eq_self.mpr fun _ _ => rfl
  simp only [hall, List.map_nil, List.append_nil, List.nil_append] at hlevel
  rw [hlevel, reach, levels_eq_tour (Nat.zero_add limit)]

/-! ### Nearest first -/

/-- What can be reached in at most the given number of steps, nearest first and each once. -/
structure BreadthFirst (r : α → α → Prop) (limit : Nat) (root : α) (visited : List α) : Prop where
  mem_iff : ∀ a, a ∈ visited ↔ ∃ n ≤ limit, Distance r n root a
  nodup : visited.Nodup
  nearestFirst : visited.Pairwise fun a b =>
    ∀ m n, Distance r m root a → Distance r n root b → m ≤ n

theorem nodup_eraseDups (list : List α) : list.eraseDups.Nodup := by
  match list with
  | [] => simp
  | a :: rest =>
      rw [List.eraseDups_cons, List.nodup_cons, List.mem_eraseDups]
      exact ⟨by simp, nodup_eraseDups _⟩
termination_by list.length
decreasing_by exact Nat.lt_succ_of_le (List.length_filter_le _ _)

/-- What was seen is what is reached in so many steps, and the level is what is reached in no less. -/
structure Layered (next : α → List α) (root : α) (steps : Nat) (seen level : List α) : Prop where
  seen : BreadthFirst (fun a b => b ∈ next a) steps root seen
  level : ∀ a, a ∈ level ↔ Distance (fun a b => b ∈ next a) steps root a

omit [BEq α] [LawfulBEq α] in
theorem Layered.root (next : α → List α) (root : α) : Layered next root 0 [root] [root] := by
  have hroot : ∀ a, a ∈ [root] ↔ Distance (fun a b => b ∈ next a) 0 root a := by
    intro a
    rw [List.mem_singleton]
    constructor
    · rintro rfl
      exact ⟨.nil _, fun _ _ => Nat.zero_le _⟩
    · rintro ⟨hsteps, -⟩
      cases hsteps
      rfl
  refine ⟨⟨fun a => ?_, by simp, List.pairwise_singleton _ _⟩, hroot⟩
  simp [hroot]

variable {root : α} {steps : Nat} {seen level : List α}

/-- What is new after a level is one step further away. -/
theorem Layered.mem_nextLevel_iff (h : Layered next root steps seen level) (a : α) :
    a ∈ nextLevel next seen level ↔ Distance (fun a b => b ∈ next a) (steps + 1) root a := by
  rw [mem_nextLevel]
  constructor
  · rintro ⟨⟨b, hb, hba⟩, hseen⟩
    obtain ⟨m, hm, hd⟩ := (((h.level b).mp hb).1.snoc hba).exists_distance
    rcases Nat.lt_or_ge steps m with hlt | hle
    · rwa [Nat.le_antisymm hm hlt] at hd
    · exact absurd ((h.seen.mem_iff a).mpr ⟨m, hle, hd⟩) hseen
  · intro hd
    obtain ⟨b, hb, hba⟩ := hd.exists_pred
    refine ⟨⟨b, (h.level b).mpr hb, hba⟩, fun hseen => ?_⟩
    obtain ⟨m, hm, hd'⟩ := (h.seen.mem_iff a).mp hseen
    have hsame := hd.unique hd'
    omega

theorem Layered.succ (h : Layered next root steps seen level) :
    Layered next root (steps + 1) (seen ++ nextLevel next seen level)
      (nextLevel next seen level) where
  level := h.mem_nextLevel_iff
  seen :=
    { mem_iff := fun a => by
        rw [List.mem_append, h.seen.mem_iff, h.mem_nextLevel_iff]
        constructor
        · rintro (⟨n, hn, hd⟩ | hd)
          · exact ⟨n, Nat.le_succ_of_le hn, hd⟩
          · exact ⟨steps + 1, Nat.le_refl _, hd⟩
        · rintro ⟨n, hn, hd⟩
          rcases Nat.lt_or_eq_of_le hn with hlt | rfl
          · exact .inl ⟨n, Nat.le_of_lt_succ hlt, hd⟩
          · exact .inr hd
      nodup := List.nodup_append'.mpr ⟨h.seen.nodup, nodup_eraseDups _, fun a hs hf =>
        (mem_nextLevel.mp hf).2 hs⟩
      nearestFirst := by
        refine List.pairwise_append.mpr ⟨h.seen.nearestFirst, ?_, fun a ha b hb => ?_⟩
        · refine List.pairwise_of_forall_mem_list fun a ha b hb m n hm hn => ?_
          rw [hm.unique ((h.mem_nextLevel_iff a).mp ha), hn.unique ((h.mem_nextLevel_iff b).mp hb)]
        · intro m n hm hn
          obtain ⟨k, hk, hd⟩ := (h.seen.mem_iff a).mp ha
          rw [hm.unique hd, hn.unique ((h.mem_nextLevel_iff b).mp hb)]
          exact Nat.le_succ_of_le hk }

/-- By induction on the steps that are left. -/
theorem Layered.levels (h : Layered next root steps seen level) (left : Nat) :
    BreadthFirst (fun a b => b ∈ next a) (steps + left) root (levels next left seen level) := by
  induction left generalizing steps seen level with
  | zero => exact h.seen
  | succ left ih =>
      rw [Walk.levels]
      split
      · next hempty =>
        rw [List.isEmpty_iff] at hempty
        refine { h.seen with mem_iff := fun a => ?_ }
        rw [h.seen.mem_iff]
        refine ⟨fun ⟨n, hn, hd⟩ => ⟨n, Nat.le_add_right_of_le hn, hd⟩, fun ⟨n, _, hd⟩ => ?_⟩
        rcases Nat.lt_or_ge steps n with hlt | hle
        · obtain ⟨b, hb⟩ := hd.exists_of_le hlt
          have hmem := (h.mem_nextLevel_iff b).mpr hb
          rw [hempty] at hmem
          exact absurd hmem List.not_mem_nil
        · exact ⟨n, hle, hd⟩
      · have hrest := ih h.succ
        rwa [Nat.add_right_comm] at hrest

/-- A walk from one root goes through everything within its limit. -/
theorem reach_breadthFirst (next : α → List α) (limit : Nat) (root : α) :
    BreadthFirst (fun a b => b ∈ next a) limit root (reach next limit [root]) := by
  have hlevels := (Layered.root next root).levels limit
  rw [Nat.zero_add] at hlevels
  have hroot : [root].eraseDups = [root] := by simp [List.eraseDups_cons]
  rwa [reach, hroot]

end Walk

namespace SymbolGraph

variable {σ : Type} {g : SymbolGraph} {a b : SymbolId}

/-! ### Walks along bases -/

/-- The second symbol is a base of the first one that was found. -/
def HasBase (g : SymbolGraph) (a b : SymbolId) : Prop :=
  b ∈ g.targets a .extends ∧ g.kind? b ≠ some .error

instance (g : SymbolGraph) (a b : SymbolId) : Decidable (g.HasBase a b) :=
  inferInstanceAs (Decidable (_ ∧ _))

/-- The first symbol is a type or module, and the second one a base of it that was found. -/
def ListsBase (g : SymbolGraph) (a b : SymbolId) : Prop :=
  (∃ kind, g.kind? a = some kind ∧ kind.hasMembers) ∧ g.HasBase a b

theorem mem_extendedTypes_iff : b ∈ g.extendedTypes a ↔ g.ListsBase a b := by
  cases hkind : g.kind? a with
  | none => simp [extendedTypes, listFor, ListsBase, hkind]
  | some kind =>
      simp [extendedTypes, listFor, foundTargets, ListsBase, HasBase, hkind]

/-- The loop with a queue visits what the walk level by level finds, up to where it is stopped. -/
theorem walkHeritage_eq_visitList (g : SymbolGraph) (depth : Nat) (id : SymbolId)
    (visit : Walk.Visitor σ SymbolId) (s : σ) :
    g.walkHeritage depth id visit s = Walk.visitList visit (g.heritage depth id) s := by
  rw [walkHeritage, Walk.tour_eq_visitList, heritage, ← Walk.tour_eq_reach]
  rfl

theorem heritage_breadthFirst (g : SymbolGraph) (depth : Nat) (id : SymbolId) :
    Walk.BreadthFirst g.ListsBase depth id (g.heritage depth id) := by
  have hrel : (fun a b => b ∈ g.extendedTypes a) = g.ListsBase := by
    funext a b
    exact propext mem_extendedTypes_iff
  rw [← hrel]
  exact Walk.reach_breadthFirst g.extendedTypes depth id

theorem mem_heritage_iff {depth : Nat} {id : SymbolId} :
    a ∈ g.heritage depth id ↔ ∃ n ≤ depth, Walk.Distance g.ListsBase n id a :=
  (g.heritage_breadthFirst depth id).mem_iff a

/-! ### The walks that questions make -/

/-- Which symbols are visited up to a stop. -/
theorem walkHeritage_until (g : SymbolGraph) (depth : Nat) (id : SymbolId) (stop : SymbolId → Bool) :
    (g.walkHeritage depth id (fun _ type => ((), stop type)) ()).1 =
      Walk.untilStop stop (g.heritage depth id) := by
  rw [walkHeritage_eq_visitList, Walk.visitList_eq_untilStop]

theorem walkHeritage_never (g : SymbolGraph) (depth : Nat) (id : SymbolId) :
    (g.walkHeritage depth id .never ()).1 = g.heritage depth id := by
  rw [walkHeritage, heritage, ← Walk.tour_eq_reach]
  rfl

theorem walkHeritage_extends (g : SymbolGraph) (id target : SymbolId) :
    (g.walkHeritage Limits.heritageDepth id
      (fun _ type => (type == target, type == target)) false).2 =
      g.extendsTransitively id target := by
  rw [walkHeritage_eq_visitList, Walk.visitList_found]
  rfl

theorem walkHeritage_member (g : SymbolGraph) (id : SymbolId) (name : String) :
    (g.walkHeritage Limits.heritageDepth id (fun _ type =>
      (g.firstNamed (g.members type) name, (g.firstNamed (g.members type) name).isSome)) none).2 =
      g.inheritedMember? id name := by
  rw [walkHeritage_eq_visitList, Walk.visitList_findSome?, inheritedMember?]

theorem walkHeritage_visible (g : SymbolGraph) (id : SymbolId) :
    (g.walkHeritage Limits.heritageDepth id (fun visible type =>
      (g.addVisible visible type, false)) []).2 =
      (g.heritage Limits.heritageDepth id).foldl g.addVisible [] := by
  rw [walkHeritage_eq_visitList, Walk.visitList_foldl]

/-! ### Main statement -/

/-- Walks along bases go through what is near enough, nearest first, and a visitor ends them at the
first symbol that it accepts. -/
structure WalksBases (g : SymbolGraph) : Prop where
  breadthFirst : ∀ depth id,
    Walk.BreadthFirst g.ListsBase depth id (g.walkHeritage depth id .never ()).1
  stopped : ∀ (σ : Type) (visit : Walk.Visitor σ SymbolId) (s : σ) depth id,
    g.walkHeritage depth id visit s =
      Walk.visitList visit (g.walkHeritage depth id .never ()).1 s
  extends_iff : ∀ id target, g.extendsTransitively id target ↔
    ∃ n ≤ Limits.heritageDepth, Walk.Distance g.ListsBase n id target

/-- A walk along bases is breadth-first in every graph. -/
theorem walksBases (g : SymbolGraph) : g.WalksBases where
  breadthFirst depth id := by
    rw [walkHeritage_never]
    exact g.heritage_breadthFirst depth id
  stopped σ visit s depth id := by rw [walkHeritage_never, walkHeritage_eq_visitList]
  extends_iff id target := by
    rw [extendsTransitively, extendsWithin, List.contains_iff_mem, mem_heritage_iff]

/-- A variable with a base. -/
def variableWithBase : List GraphEdit :=
  [.alloc "v" .variable ∅, .alloc "I" .interface ∅, .link ⟨8, 9, .extends⟩]

/-- A variable lists no bases, so that the walk ends there. -/
theorem not_breadthFirst_hasBase :
    ¬Walk.BreadthFirst (WellKnown.graph.afterEdits variableWithBase).HasBase 5 8
      ((WellKnown.graph.afterEdits variableWithBase).walkHeritage 5 8 .never ()).1 := by
  intro h
  have hbase : (WellKnown.graph.afterEdits variableWithBase).HasBase 8 9 := by decide +kernel
  obtain ⟨n, hn, hd⟩ := (Walk.Steps.cons hbase (.nil 9)).exists_distance
  have hmem := (h.mem_iff 9).mpr ⟨n, by omega, hd⟩
  rw [walkHeritage_never] at hmem
  exact absurd hmem (by decide +kernel)

end SymbolGraph

end NameBinding
