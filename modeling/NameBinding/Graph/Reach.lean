import NameBinding.Graph.Walk

/-! What a walk finds. Main statement: a walk finds what some root leads to in the given number of
steps, and nothing else. -/

namespace NameBinding.Walk

variable {α : Type}

/-- At most the given number of steps lead from one element to another. -/
inductive Within (next : α → List α) : Nat → α → α → Prop where
  | here (steps : Nat) (a : α) : Within next steps a a
  | step {steps : Nat} {a b c : α} (hb : b ∈ next a) (hc : Within next steps b c) :
      Within next (steps + 1) a c

variable {next : α → List α}

theorem Within.mono {m n : Nat} {a b : α} (h : Within next m a b) (hmn : m ≤ n) :
    Within next n a b := by
  induction h generalizing n with
  | here => exact .here _ _
  | step hb _ ih =>
    obtain ⟨n, rfl⟩ : ∃ k, n = k + 1 := ⟨n - 1, by omega⟩
    exact .step hb (ih (by omega))

/-- Only the elements of the last level have steps that lead out of what was seen. -/
structure Frontier (next : α → List α) (seen level : List α) : Prop where
  level_subset : ∀ a ∈ level, a ∈ seen
  closed : ∀ a ∈ seen, a ∈ level ∨ ∀ b ∈ next a, b ∈ seen

/-- A walk that starts in what was seen and ends elsewhere goes through the last level. -/
theorem Frontier.exits {seen level : List α} (h : Frontier next seen level) {steps : Nat} {a b : α}
    (ha : a ∈ seen) (hab : Within next steps a b) :
    b ∈ seen ∨ ∃ c ∈ level, Within next steps c b := by
  induction hab with
  | here => exact .inl ha
  | step hb hc ih =>
    rcases h.closed _ ha with hl | hn
    · exact .inr ⟨_, hl, .step hb hc⟩
    · rcases ih (hn _ hb) with hs | ⟨d, hd, hw⟩
      · exact .inl hs
      · exact .inr ⟨d, hd, hw.mono (Nat.le_succ _)⟩

variable [BEq α] [LawfulBEq α]

theorem Frontier.nextLevel {seen level : List α} (h : Frontier next seen level) :
    Frontier next (seen ++ nextLevel next seen level) (nextLevel next seen level) where
  level_subset _ ha := List.mem_append_right _ ha
  closed a ha := by
    rcases List.mem_append.mp ha with hs | hf
    · refine .inr fun b hb => ?_
      rcases h.closed a hs with hl | hn
      · by_cases hbs : b ∈ seen
        · exact List.mem_append_left _ hbs
        · exact List.mem_append_right _ (mem_nextLevel.mpr ⟨⟨a, hl, hb⟩, hbs⟩)
      · exact List.mem_append_left _ (hn b hb)
    · exact .inl hf

theorem mem_levels_iff {seen level : List α} (h : Frontier next seen level) (steps : Nat) {a : α} :
    a ∈ levels next steps seen level ↔ a ∈ seen ∨ ∃ b ∈ level, Within next steps b a := by
  induction steps generalizing seen level with
  | zero =>
    refine ⟨.inl, ?_⟩
    rintro (hs | ⟨b, hb, hw⟩)
    · exact hs
    · cases hw
      exact h.level_subset _ hb
  | succ steps ih =>
    have hgo : a ∈ seen ∨ (∃ b ∈ level, Within next (steps + 1) b a) ↔
        a ∈ seen ++ nextLevel next seen level ∨
          ∃ b ∈ nextLevel next seen level, Within next steps b a := by
      constructor
      · rintro (hs | ⟨b, hb, hw⟩)
        · exact .inl (List.mem_append_left _ hs)
        · cases hw with
          | here => exact .inl (List.mem_append_left _ (h.level_subset _ hb))
          | @step _ _ c _ hc hw =>
            refine h.nextLevel.exits ?_ hw
            by_cases hcs : c ∈ seen
            · exact List.mem_append_left _ hcs
            · exact List.mem_append_right _ (mem_nextLevel.mpr ⟨⟨b, hb, hc⟩, hcs⟩)
      · rintro (hs | ⟨b, hb, hw⟩)
        · rcases List.mem_append.mp hs with hs | hf
          · exact .inl hs
          · obtain ⟨⟨b, hb, hc⟩, -⟩ := mem_nextLevel.mp hf
            exact .inr ⟨b, hb, .step hc (.here _ _)⟩
        · obtain ⟨⟨c, hc, hb⟩, -⟩ := mem_nextLevel.mp hb
          exact .inr ⟨c, hc, .step hb hw⟩
    rw [hgo, ← ih h.nextLevel, levels]
    split
    · next hf =>
      rw [List.isEmpty_iff] at hf
      have hclosed := h.nextLevel
      rw [hf] at hclosed ⊢
      rw [ih hclosed]
      simp
    · rfl

/-- A walk finds what some root leads to in that many steps, and nothing else. -/
theorem mem_reach_iff {steps : Nat} {roots : List α} {a : α} :
    a ∈ reach next steps roots ↔ ∃ r ∈ roots, Within next steps r a := by
  have h : Frontier next roots.eraseDups roots.eraseDups := ⟨fun _ h => h, fun _ h => .inl h⟩
  rw [reach, mem_levels_iff h]
  constructor
  · rintro (hr | ⟨r, hr, hw⟩)
    · exact ⟨a, List.mem_eraseDups.mp hr, .here _ _⟩
    · exact ⟨r, List.mem_eraseDups.mp hr, hw⟩
  · rintro ⟨r, hr, hw⟩
    exact .inr ⟨r, List.mem_eraseDups.mpr hr, hw⟩

end NameBinding.Walk
