import Mathlib.Data.List.Infix
import NameBinding.Text.Template

/-! # Occurrences of a pattern

The first character of a placeholder does not come again in it, so that two of its occurrences never
overlap.

Main statement: when a pattern marks the gaps of a text, replacing it puts the new text into the
gaps and changes nothing else exactly when the pattern is nowhere but in the gaps, or is replaced by
itself. -/

namespace NameBinding.Template

variable {c first : Char} {pattern body replacement text before : List Char}

/-! ### Counting and replacing -/

/-- At how many places of a text a pattern begins. -/
def countIn (pattern text : List Char) : Nat := text.tails.countP pattern.isPrefixOf

@[simp] theorem countIn_nil (first : Char) (body : List Char) : countIn (first :: body) [] = 0 :=
  rfl

theorem countIn_cons (pattern : List Char) (c : Char) (text : List Char) :
    countIn pattern (c :: text) =
      countIn pattern text + if pattern <+: c :: text then 1 else 0 := by
  simp [countIn, List.countP_cons]

theorem countIn_le_append (pattern before text : List Char) :
    countIn pattern text ≤ countIn pattern (before ++ text) := by
  induction before with
  | nil => exact le_rfl
  | cons c before ih =>
      rw [List.cons_append, countIn_cons]
      exact ih.trans (Nat.le_add_right _ _)

theorem countIn_append_of_not_mem (h : first ∉ before) :
    countIn (first :: body) (before ++ text) = countIn (first :: body) text := by
  induction before with
  | nil => rfl
  | cons c before ih =>
      have hc : ¬ first :: body <+: c :: (before ++ text) := fun hpre =>
        h ((List.cons_prefix_cons.mp hpre).1 ▸ List.mem_cons_self)
      rw [List.cons_append, countIn_cons, if_neg hc, ih fun hm => h (List.mem_cons_of_mem _ hm),
        Nat.add_zero]

theorem countIn_self_append (h : first ∉ body) (text : List Char) :
    countIn (first :: body) (first :: body ++ text) = countIn (first :: body) text + 1 := by
  have hpre : first :: body <+: first :: (body ++ text) := List.prefix_append (first :: body) text
  rw [List.cons_append, countIn_cons, if_pos hpre, countIn_append_of_not_mem h]

theorem replaceFrom_self_append (first : Char) (body replacement text : List Char) :
    replaceFrom (first :: body) replacement 0 (first :: body ++ text) =
      replacement ++ replaceFrom (first :: body) replacement 0 text := by
  have hpre : (first :: body).isPrefixOf (first :: (body ++ text)) := by
    rw [List.isPrefixOf_iff_prefix]
    exact List.prefix_append (first :: body) text
  rw [List.cons_append, replaceFrom, if_pos hpre, replaceFrom_skip]
  simp

theorem replaceFrom_cons (h : ¬ pattern <+: c :: text) :
    replaceFrom pattern replacement 0 (c :: text) =
      c :: replaceFrom pattern replacement 0 text := by
  rw [replaceFrom, if_neg (mt List.isPrefixOf_iff_prefix.mp h)]

/-- Nothing is replaced in a part of the text in which the pattern does not begin. -/
theorem replaceFrom_append (h : countIn pattern (before ++ text) = countIn pattern text) :
    replaceFrom pattern replacement 0 (before ++ text) =
      before ++ replaceFrom pattern replacement 0 text := by
  induction before with
  | nil => rfl
  | cons c before ih =>
      have hle := countIn_le_append pattern before text
      rw [List.cons_append, countIn_cons] at h
      by_cases hpre : pattern <+: c :: (before ++ text)
      · rw [if_pos hpre] at h
        omega
      · rw [if_neg hpre] at h
        rw [List.cons_append, replaceFrom_cons hpre, ih h, List.cons_append]

/-- A text is read from the left, and an occurrence of a pattern at once. -/
theorem scan_induction {ι : Type} (patterns : ι → List Char) (hne : ∀ i, patterns i ≠ [])
    {motive : List Char → Prop} (nil : motive [])
    (occurs : ∀ i text, motive text → motive (patterns i ++ text))
    (skips : ∀ c text, (∀ i, ¬ patterns i <+: c :: text) → motive text → motive (c :: text))
    (text : List Char) : motive text := by
  induction hn : text.length using Nat.strong_induction_on generalizing text with
  | h n ih =>
      subst hn
      cases text with
      | nil => exact nil
      | cons c rest =>
          by_cases hpre : ∃ i, patterns i <+: c :: rest
          · obtain ⟨i, after, hafter⟩ := hpre
            rw [← hafter]
            refine occurs i after (ih after.length ?_ after rfl)
            rw [← hafter, List.length_append]
            exact Nat.lt_add_of_pos_left (List.length_pos_of_ne_nil (hne i))
          · exact skips c rest (not_exists.mp hpre) (ih rest.length (by simp) rest rfl)

/-- As the occurrences do not overlap, each of them is replaced. -/
theorem length_replaceFrom (h : first ∉ body) (replacement text : List Char) :
    (replaceFrom (first :: body) replacement 0 text).length +
        countIn (first :: body) text * (first :: body).length =
      text.length + countIn (first :: body) text * replacement.length := by
  induction text using scan_induction (fun _ : Unit => first :: body) (by simp) with
  | nil => simp [replaceFrom]
  | occurs _ text ih =>
      rw [replaceFrom_self_append, countIn_self_append h, List.length_append, List.length_append,
        Nat.add_one_mul, Nat.add_one_mul]
      omega
  | skips c text hpre ih =>
      simp only [replaceFrom_cons (hpre ()), countIn_cons, if_neg (hpre ()), Nat.add_zero,
        List.length_cons] at ih ⊢
      omega

@[simp] theorem replaceFrom_self (first : Char) (body text : List Char) :
    replaceFrom (first :: body) (first :: body) 0 text = text := by
  induction text using scan_induction (fun _ : Unit => first :: body) (by simp) with
  | nil => rfl
  | occurs _ text ih => rw [replaceFrom_self_append, ih]
  | skips c text hpre ih => rw [replaceFrom_cons (hpre ()), ih]

/-! ### Texts with gaps -/

variable {gaps : List (Option (List Char))}

/-- A text with gaps after the same text has been put into each of them. -/
def fillGaps (gaps : List (Option (List Char))) (filling : List Char) : List Char :=
  gaps.flatMap (·.getD filling)

@[simp] theorem fillGaps_nil (filling : List Char) : fillGaps [] filling = [] := rfl

@[simp] theorem fillGaps_none (gaps : List (Option (List Char))) (filling : List Char) :
    fillGaps (none :: gaps) filling = filling ++ fillGaps gaps filling := rfl

@[simp] theorem fillGaps_some (text : List Char) (gaps : List (Option (List Char)))
    (filling : List Char) :
    fillGaps (some text :: gaps) filling = text ++ fillGaps gaps filling := rfl

theorem length_fillGaps (gaps : List (Option (List Char))) (filling filling' : List Char) :
    (fillGaps gaps filling).length + gaps.count none * filling'.length =
      (fillGaps gaps filling').length + gaps.count none * filling.length := by
  induction gaps with
  | nil => simp
  | cons gap gaps ih =>
      cases gap with
      | none =>
          simp only [fillGaps_none, List.length_append, List.count_cons_self, Nat.add_one_mul]
          omega
      | some text =>
          simp only [fillGaps_some, List.length_append, ne_eq, reduceCtorEq, not_false_eq_true,
            List.count_cons_of_ne]
          omega

theorem count_none_le_countIn (h : first ∉ body) (gaps : List (Option (List Char))) :
    gaps.count none ≤ countIn (first :: body) (fillGaps gaps (first :: body)) := by
  induction gaps with
  | nil => exact Nat.zero_le _
  | cons gap gaps ih =>
      cases gap with
      | none =>
          rw [fillGaps_none, countIn_self_append h, List.count_cons_self]
          exact Nat.add_le_add_right ih 1
      | some text =>
          rw [fillGaps_some, List.count_cons_of_ne (by simp)]
          exact ih.trans (countIn_le_append _ _ _)

theorem replaceFrom_fillGaps (h : first ∉ body)
    (hcount : countIn (first :: body) (fillGaps gaps (first :: body)) = gaps.count none) :
    replaceFrom (first :: body) replacement 0 (fillGaps gaps (first :: body)) =
      fillGaps gaps replacement := by
  induction gaps with
  | nil => rfl
  | cons gap gaps ih =>
      cases gap with
      | none =>
          rw [fillGaps_none, countIn_self_append h, List.count_cons_self] at hcount
          rw [fillGaps_none, fillGaps_none, replaceFrom_self_append,
            ih (Nat.add_right_cancel hcount)]
      | some text =>
          rw [fillGaps_some, List.count_cons_of_ne (by simp)] at hcount
          have hle := countIn_le_append (first :: body) text (fillGaps gaps (first :: body))
          have hgaps := count_none_le_countIn h gaps
          rw [fillGaps_some, fillGaps_some, replaceFrom_append (by omega), ih (by omega)]

/-- A gap cannot be reached without the first character of the pattern that marks it. -/
theorem prefix_fillGaps {start : List Char} (h : first ∉ start)
    (hstart : start <+: fillGaps gaps (first :: body)) : start <+: fillGaps gaps replacement := by
  induction gaps generalizing start with
  | nil => exact hstart
  | cons gap gaps ih =>
      cases gap with
      | none =>
          cases start with
          | nil => exact List.nil_prefix
          | cons c start =>
              rw [fillGaps_none, List.cons_append, List.cons_prefix_cons] at hstart
              exact absurd (hstart.1 ▸ List.mem_cons_self) h
      | some text =>
          rw [fillGaps_some] at hstart ⊢
          rcases List.prefix_or_prefix_of_prefix hstart (List.prefix_append text _) with
            hle | ⟨start', rfl⟩
          · exact hle.trans (List.prefix_append _ _)
          · rw [List.prefix_append_right_inj] at hstart
            exact (List.prefix_append_right_inj text).mpr
              (ih (fun hm => h (List.mem_append_right _ hm)) hstart)

/-- If the new text is as long as the pattern, the two texts differ where the pattern begins outside
of the gaps. By induction on the text before the next gap. -/
theorem eq_or_count_of_replaceFrom_append (h : first ∉ body)
    (hlen : replacement.length = (first :: body).length)
    (hrest : replaceFrom (first :: body) replacement 0 (fillGaps gaps (first :: body)) =
        fillGaps gaps replacement → replacement = first :: body ∨
      countIn (first :: body) (fillGaps gaps (first :: body)) = gaps.count none)
    (heq : replaceFrom (first :: body) replacement 0 (before ++ fillGaps gaps (first :: body)) =
      before ++ fillGaps gaps replacement) :
    replacement = first :: body ∨
      countIn (first :: body) (before ++ fillGaps gaps (first :: body)) = gaps.count none := by
  induction before with
  | nil => exact hrest heq
  | cons c before ih =>
      rw [List.cons_append] at heq ⊢
      by_cases hpre : first :: body <+: c :: (before ++ fillGaps gaps (first :: body))
      · left
        have hfilled : first :: body <+: c :: (before ++ fillGaps gaps replacement) := by
          obtain ⟨rfl, hbody⟩ := List.cons_prefix_cons.mp hpre
          have hgaps : body <+: fillGaps (some before :: gaps) replacement :=
            prefix_fillGaps h hbody
          exact List.cons_prefix_cons.mpr ⟨rfl, hgaps⟩
        have hreplaced : replacement <+: c :: (before ++ fillGaps gaps replacement) := by
          obtain ⟨rest, hrest⟩ := hpre
          rw [← hrest, replaceFrom_self_append, List.cons_append] at heq
          exact ⟨_, heq⟩
        exact (List.prefix_of_prefix_length_le hreplaced hfilled hlen.le).eq_of_length hlen
      · rw [replaceFrom_cons hpre, List.cons_append] at heq
        rw [countIn_cons, if_neg hpre]
        exact ih (List.cons.inj heq).2

theorem eq_or_count_of_replaceFrom (h : first ∉ body)
    (hlen : replacement.length = (first :: body).length)
    (heq : replaceFrom (first :: body) replacement 0 (fillGaps gaps (first :: body)) =
      fillGaps gaps replacement) :
    replacement = first :: body ∨
      countIn (first :: body) (fillGaps gaps (first :: body)) = gaps.count none := by
  induction gaps with
  | nil => exact .inr rfl
  | cons gap gaps ih =>
      cases gap with
      | none =>
          rw [fillGaps_none, fillGaps_none, replaceFrom_self_append] at heq
          rw [fillGaps_none, countIn_self_append h, List.count_cons_self, Nat.add_right_cancel_iff]
          exact ih (List.append_cancel_left heq)
      | some text =>
          rw [List.count_cons_of_ne (by simp)]
          exact eq_or_count_of_replaceFrom_append h hlen ih heq

/-- Each occurrence outside of the gaps makes a difference of as many characters as the new text is
longer or shorter than the pattern. -/
theorem length_eq_or_count_of_replaceFrom (h : first ∉ body)
    (heq : replaceFrom (first :: body) replacement 0 (fillGaps gaps (first :: body)) =
      fillGaps gaps replacement) :
    replacement.length = (first :: body).length ∨
      countIn (first :: body) (fillGaps gaps (first :: body)) = gaps.count none := by
  obtain ⟨extra, hextra⟩ := Nat.exists_eq_add_of_le (count_none_le_countIn h gaps)
  have hreplaced := length_replaceFrom h replacement (fillGaps gaps (first :: body))
  have hfilled := length_fillGaps gaps replacement (first :: body)
  rw [heq, hextra, Nat.add_mul, Nat.add_mul] at hreplaced
  have hextra' : extra * replacement.length = extra * (first :: body).length := by omega
  rcases Nat.eq_zero_or_pos extra with rfl | hpos
  · exact .inr hextra
  · exact .inl (Nat.eq_of_mul_eq_mul_left hpos hextra')

/-- Replacing a pattern fills the gaps that it marks, and changes nothing else, exactly when it is
nowhere but in the gaps or stays as it is. -/
theorem replaceFrom_fillGaps_eq_iff (h : first ∉ body) (gaps : List (Option (List Char)))
    (replacement : List Char) :
    replaceFrom (first :: body) replacement 0 (fillGaps gaps (first :: body)) =
        fillGaps gaps replacement ↔
      replacement = first :: body ∨
        countIn (first :: body) (fillGaps gaps (first :: body)) = gaps.count none := by
  constructor
  · intro heq
    rcases length_eq_or_count_of_replaceFrom h heq with hlen | hcount
    · exact eq_or_count_of_replaceFrom h hlen heq
    · exact .inr hcount
  · rintro (rfl | hcount)
    · exact replaceFrom_self first body _
    · exact replaceFrom_fillGaps h hcount

end NameBinding.Template
