import Mathlib.Logic.Relation
import NameBinding.Graph.Reach

/-! # Walks that come to an end

A walk through symbols with as many steps as there are symbols meets all that the roots lead to. -/

namespace NameBinding.Walk

variable {next : Nat → List Nat} {n : Nat}

/-- What a walk has not seen yet. -/
def unseen (n : Nat) (seen : List Nat) : List Nat := (List.range n).filter (!seen.contains ·)

theorem unseen_append (n : Nat) (seen fresh : List Nat) :
    unseen n (seen ++ fresh) = (unseen n seen).filter (!fresh.contains ·) := by
  rw [unseen, unseen, List.filter_filter]
  refine List.filter_congr fun a _ => ?_
  simp [List.contains_eq_mem, Bool.and_comm]

theorem length_unseen_append_le (n : Nat) (seen fresh : List Nat) :
    (unseen n (seen ++ fresh)).length ≤ (unseen n seen).length := by
  rw [unseen_append]
  exact List.length_filter_le _ _

theorem length_unseen_append_lt {seen fresh : List Nat} {b : Nat} (hb : b ∈ fresh) (hbn : b < n)
    (hbs : b ∉ seen) : (unseen n (seen ++ fresh)).length < (unseen n seen).length := by
  have hmem : b ∈ unseen n seen := by simp [unseen, hbn, hbs]
  rw [unseen_append]
  exact List.length_filter_lt_length_iff_exists.mpr ⟨b, hmem, by simp [hb]⟩

/-- By induction on the steps. Each level that is not the last one sees something new. -/
theorem levels_closed {seen level : List Nat} (h : Frontier next seen level)
    (hnext : ∀ a, ∀ b ∈ next a, b < n) {steps : Nat} (hsteps : (unseen n seen).length ≤ steps)
    {a b : Nat} (ha : a ∈ levels next steps seen level) (hb : b ∈ next a) :
    b ∈ levels next steps seen level := by
  induction steps generalizing seen level with
  | zero =>
      have hnil : unseen n seen = [] := List.length_eq_zero_iff.mp (Nat.le_zero.mp hsteps)
      have hall := List.filter_eq_nil_iff.mp hnil b (List.mem_range.mpr (hnext a b hb))
      simpa [levels] using hall
  | succ steps ih =>
      rw [levels] at ha ⊢
      split at ha
      · next hf =>
        rw [if_pos hf]
        rw [List.isEmpty_iff] at hf
        have hclosed := h.nextLevel
        rw [hf, List.append_nil] at hclosed
        rcases hclosed.closed a ha with hl | hn
        · exact absurd hl List.not_mem_nil
        · exact hn b hb
      · next hf =>
        rw [if_neg hf]
        refine ih h.nextLevel ?_ ha
        obtain ⟨c, hc⟩ := List.exists_mem_of_ne_nil _ fun hnil => hf (List.isEmpty_iff.mpr hnil)
        obtain ⟨⟨d, -, hcd⟩, hcs⟩ := mem_nextLevel.mp hc
        have hlt := length_unseen_append_lt hc (hnext d c hcd) hcs
        omega

/-- A walk with as many steps as there are symbols is closed. -/
theorem reach_closed (hnext : ∀ a, ∀ b ∈ next a, b < n) {roots : List Nat} {a b : Nat}
    (ha : a ∈ reach next n roots) (hb : b ∈ next a) : b ∈ reach next n roots := by
  refine levels_closed ⟨fun _ h => h, fun _ h => .inl h⟩ hnext ?_ ha hb
  have hle := List.length_filter_le (fun b => !roots.eraseDups.contains b) (List.range n)
  rwa [List.length_range] at hle

theorem Within.reflTransGen {α : Type} {next : α → List α} {steps : Nat} {a b : α}
    (h : Within next steps a b) : Relation.ReflTransGen (fun a b => b ∈ next a) a b := by
  induction h with
  | here => exact .refl
  | step hb _ ih => exact .head hb ih

/-- Such a walk finds all that the roots lead to. -/
theorem mem_reach_iff_reflTransGen (hnext : ∀ a, ∀ b ∈ next a, b < n) {roots : List Nat} {b : Nat} :
    b ∈ reach next n roots ↔
      ∃ a ∈ roots, Relation.ReflTransGen (fun a b => b ∈ next a) a b := by
  constructor
  · intro hb
    obtain ⟨a, ha, hw⟩ := mem_reach_iff.mp hb
    exact ⟨a, ha, hw.reflTransGen⟩
  · rintro ⟨a, ha, hab⟩
    induction hab with
    | refl => exact mem_reach_iff.mpr ⟨a, ha, .here _ _⟩
    | tail _ hb ih => exact reach_closed hnext ih hb

end NameBinding.Walk
