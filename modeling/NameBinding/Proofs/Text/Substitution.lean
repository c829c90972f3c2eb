import NameBinding.Diagnostic
import NameBinding.Proofs.Text.Parts

/-! # Arguments one after another and all at once

The arguments are filled in one after another, so that a placeholder which one of them brings in, or
helps to make, is filled in as well when it has a later number.

Main statement: the result is that of filling in all arguments at once, at every step, exactly when
no such placeholder is made. This is so for all arguments when the template has only the last
placeholder, and for all templates when no argument but the last can be a part of a placeholder. -/

namespace NameBinding.Template

variable {index : Nat} {template : String} {args : List String}

/-! ### One argument after another -/

theorem fillFrom_append (index : Nat) (template : String) (args : List String) (arg : String) :
    fillFrom index template (args ++ [arg]) =
      replace (fillFrom index template args) (placeholder (index + args.length)) arg := by
  induction args generalizing index template with
  | nil => rfl
  | cons a args ih =>
      rw [List.cons_append, fillFrom, ih, fillFrom, List.length_cons, Nat.add_assoc,
        Nat.add_comm 1]

theorem fill_append (template : String) (args : List String) (arg : String) :
    fill template (args ++ [arg]) = replace (fill template args) (placeholder args.length) arg := by
  rw [fill, fillFrom_append, Nat.zero_add, fill]

/-- When the turn of an argument comes, its placeholder is only where the template has it, or is
replaced by itself. -/
def Undisturbed (template : String) (args : List String) : Prop :=
  ∀ index, ∀ h : index < args.length, args[index] = placeholder index ∨
    occurrences (substitute template (args.take index)) (placeholder index) =
      occurrences template (placeholder index)

instance (template : String) (args : List String) : Decidable (Undisturbed template args) :=
  inferInstanceAs (Decidable (∀ index, ∀ _ : index < args.length, _))

/-- By induction on the number of arguments that are filled in. -/
theorem Undisturbed.fill_take (h : Undisturbed template args) (count : Nat) :
    fill template (args.take count) = substitute template (args.take count) := by
  induction count with
  | zero => simp
  | succ count ih =>
      rcases Nat.lt_or_ge count args.length with hlt | hle
      · have hlength : (args.take count).length = count := List.length_take_of_le hlt.le
        have hstep := replace_substitute_eq_iff template (args.take count) args[count]
        rw [hlength] at hstep
        rw [← List.take_append_getElem hlt, fill_append, ih, hlength]
        exact hstep.mpr (h count hlt)
      · rw [List.take_of_length_le hle] at ih
        rwa [List.take_of_length_le (Nat.le_succ_of_le hle)]

theorem Undisturbed.fill_eq (h : Undisturbed template args) :
    fill template args = substitute template args := by
  simpa using h.fill_take args.length

/-- Filling in one argument after another gives the same as filling in all of them at once, for the
list of arguments and for each shorter one that it begins with, exactly when no argument helps to
make a placeholder of a later one. -/
theorem fill_take_eq_substitute_iff (template : String) (args : List String) :
    (∀ count, fill template (args.take count) = substitute template (args.take count)) ↔
      Undisturbed template args := by
  refine ⟨fun h index hlt => ?_, Undisturbed.fill_take⟩
  have hlength : (args.take index).length = index := List.length_take_of_le hlt.le
  have hstep := replace_substitute_eq_iff template (args.take index) args[index]
  have hnext := h (index + 1)
  rw [← List.take_append_getElem hlt, fill_append, h index] at hnext
  rw [hlength] at hstep hnext
  exact hstep.mp hnext

/-- An argument with the placeholder of a later one in it is not filled in as it is. -/
theorem not_fill_eq_substitute :
    ¬ ∀ template args, fill template args = substitute template args := by
  intro h
  have hfill := h "Type '\x7b0\x7d' is not assignable to '\x7b1\x7d'." ["\x7b1\x7d", "B"]
  revert hfill
  decide

/-- A later argument can take away what an earlier one has brought in. So the result for all
arguments alone does not tell. -/
example : fill "\x7b0\x7d" ["\x7b1\x7d\x7b2\x7d", "", "\x7b1\x7d\x7b2\x7d"] =
    substitute "\x7b0\x7d" ["\x7b1\x7d\x7b2\x7d", "", "\x7b1\x7d\x7b2\x7d"] := by
  decide

/-! ### Templates for all arguments -/

theorem substitute_append_placeholder (template : String) (args : List String) :
    substitute template (args ++ [placeholder args.length]) = substitute template args := by
  rw [← String.toList_inj, ← fillGaps_gaps, fillGaps_gaps_placeholder]

/-- A placeholder as its own argument changes nothing. -/
theorem fill_append_placeholder (template : String) (args : List String) :
    fill template (args ++ [placeholder args.length]) = fill template args := by
  rw [fill_append, replace, toList_placeholder, replaceFrom_self, String.ofList_toList]

/-- By induction from the larger number down. -/
theorem fill_eq_of_length_le {count count' : Nat}
    (h : ∀ args : List String, args.length = count → fill template args = substitute template args)
    (hle : count' ≤ count) (hlength : args.length = count') :
    fill template args = substitute template args := by
  induction hle using Nat.decreasingInduction generalizing args with
  | self => exact h args hlength
  | of_succ count' _ ih =>
      rw [← fill_append_placeholder, ← substitute_append_placeholder]
      exact ih (by simp [hlength])

/-- Arguments of which the last one brings in the placeholder of the next. -/
def leading (index : Nat) : List String := List.replicate index "" ++ [placeholder (index + 1)]

theorem length_leading (index : Nat) : (leading index).length = index + 1 := by simp [leading]

/-- The placeholder of the next argument is then in two kinds of places. -/
theorem count_add_count_le (index : Nat) (parts : List Part) :
    parts.count (.hole index) + parts.count (.hole (index + 1)) ≤
      countIn (placeholder (index + 1)).toList (parts.flatMap (Part.render (leading index))) := by
  induction parts with
  | nil => exact Nat.zero_le _
  | cons part parts ih =>
      rw [List.flatMap_cons]
      by_cases h : part = .hole index ∨ part = .hole (index + 1)
      · have hrender : part.render (leading index) = (placeholder (index + 1)).toList := by
          rcases h with rfl | rfl
          · exact Part.render_hole_of_some (by simp [leading])
          · exact Part.render_hole_of_none (by simp [leading])
        have hcount : (part :: parts).count (.hole index) +
            (part :: parts).count (.hole (index + 1)) =
              parts.count (.hole index) + parts.count (.hole (index + 1)) + 1 := by
          rcases h with rfl | rfl <;> simp <;> omega
        rw [hrender, countIn_placeholder_append, if_pos rfl, hcount]
        exact Nat.add_le_add_right ih 1
      · rw [not_or] at h
        rw [List.count_cons_of_ne h.1, List.count_cons_of_ne h.2]
        exact ih.trans (countIn_le_append _ _ _)

theorem substitute_eq_self
    (h : ∀ index < args.length, occurrences template (placeholder index) = 0) :
    substitute template args = template := by
  have hrender : ∀ part ∈ parts template.toList, part.render args = part.render [] := by
    intro part hpart
    cases part with
    | char c => rfl
    | hole index =>
        have hle : args.length ≤ index := by
          by_contra hlt
          have hcount := h index (Nat.lt_of_not_le hlt)
          rw [occurrences, ← count_parts, List.count_eq_zero] at hcount
          exact hcount hpart
        rw [Part.render_hole_of_none (List.getElem?_eq_none hle),
          Part.render_hole_of_none List.getElem?_nil]
  rw [substitute, List.flatMap_congr hrender, flatMap_render_nil, String.ofList_toList]

/-- Filling in one argument after another is right for all lists of arguments of a length exactly
when the template has no placeholder of an argument before the last one. -/
theorem fill_eq_substitute_forall_iff (template : String) (count : Nat) :
    (∀ args : List String, args.length = count →
        fill template args = substitute template args) ↔
      ∀ index, index + 1 < count → occurrences template (placeholder index) = 0 := by
  constructor
  · -- The argument for this placeholder brings in the next one, which is then filled in as well.
    intro h index hindex
    have hfill : fill template (leading index) = substitute template (leading index) :=
      fill_eq_of_length_le h hindex.le (length_leading index)
    have hlength : (leading index ++ [""]).length = index + 2 := by simp [length_leading]
    have hnext := fill_eq_of_length_le h hindex hlength
    rw [fill_append, hfill, replace_substitute_eq_iff, length_leading] at hnext
    rcases hnext with hempty | hcount
    · have hnil := congrArg String.toList hempty
      rw [toList_placeholder] at hnil
      cases hnil
    · have hle := count_add_count_le index (parts template.toList)
      rw [count_parts, count_parts] at hle
      rw [occurrences, occurrences, substitute, String.toList_ofList] at hcount
      rw [occurrences]
      omega
  · intro h args hlength
    refine Undisturbed.fill_eq fun index hlt => .inr ?_
    rw [substitute_eq_self fun before hbefore => h before ?_]
    rw [List.length_take] at hbefore
    omega

/-! ### Arguments for all templates -/

/-- A text that does not help to make a placeholder, whatever stands around it. -/
structure Inert (arg : String) : Prop where
  head : ∃ c rest, arg.toList = c :: rest ∧ ¬isClosing c
  not_mem : '{' ∉ arg.toList

theorem Part.exists_render_hole (hinert : ∀ arg ∈ args, Inert arg) (index : Nat) :
    ∃ c rest, (Part.hole index).render args = c :: rest ∧ ¬isClosing c := by
  cases harg : args[index]? with
  | none =>
      rw [render_hole_of_none harg, toList_placeholder]
      exact ⟨'{', closing index, rfl, by decide⟩
  | some arg =>
      rw [render_hole_of_some harg]
      exact (hinert arg (List.mem_of_getElem? harg)).head

/-- The rest of a placeholder ends before the next one, and before an inert argument in place of
it. -/
theorem prefix_flatMap_render_iff (hinert : ∀ arg ∈ args, Inert arg) {start : List Char}
    (hstart : ∀ c ∈ start, isClosing c) (text : List Char) :
    start <+: (parts text).flatMap (Part.render args) ↔ start <+: text := by
  induction text using parts_induction generalizing start with
  | nil => rfl
  | hole index text ih =>
      cases start with
      | nil => simp
      | cons first start =>
          obtain ⟨c, rest, hrender, hc⟩ := Part.exists_render_hole hinert index
          have hfirst : isClosing first := hstart first List.mem_cons_self
          have hc : first ≠ c := fun h => hc (h ▸ hfirst)
          have hopen : first ≠ '{' := by
            rintro rfl
            exact absurd hfirst (by decide)
          rw [parts_placeholder_append, List.flatMap_cons, hrender, toList_placeholder]
          simp [List.cons_prefix_cons, hc, hopen]
  | char c text hpre ih =>
      cases start with
      | nil => simp
      | cons first start =>
          rw [parts_cons hpre, List.flatMap_cons, Part.render, List.singleton_append,
            List.cons_prefix_cons, List.cons_prefix_cons,
            ih fun c hc => hstart c (List.mem_cons_of_mem _ hc)]

/-- Inert arguments make no placeholder of a later argument. -/
theorem countIn_flatMap_render (hinert : ∀ arg ∈ args, Inert arg) (hindex : args.length ≤ index)
    (text : List Char) :
    countIn (placeholder index).toList ((parts text).flatMap (Part.render args)) =
      countIn (placeholder index).toList text := by
  induction text using parts_induction with
  | nil => rfl
  | hole other text ih =>
      rw [parts_placeholder_append, List.flatMap_cons, countIn_placeholder_append]
      cases harg : args[other]? with
      | none => rw [Part.render_hole_of_none harg, countIn_placeholder_append, ih]
      | some arg =>
          have hne : other ≠ index :=
            ((List.getElem?_eq_some_iff.mp harg).1.trans_le hindex).ne
          have hbrace := (hinert arg (List.mem_of_getElem? harg)).not_mem
          rw [toList_placeholder] at ih ⊢
          rw [Part.render_hole_of_some harg, countIn_append_of_not_mem hbrace, ih, if_neg hne,
            Nat.add_zero]
  | char c text hpre ih =>
      have hiff : (placeholder index).toList <+: c :: (parts text).flatMap (Part.render args) ↔
          (placeholder index).toList <+: c :: text := by
        rw [toList_placeholder, List.cons_prefix_cons, List.cons_prefix_cons,
          prefix_flatMap_render_iff hinert fun c hc => isClosing_of_mem_closing hc]
      rw [parts_cons hpre, List.flatMap_cons, Part.render, List.singleton_append, countIn_cons,
        countIn_cons, ih]
      simp only [hiff]

/-- Only the last argument may be any text. The others have a first character that is neither a
digit nor a closing brace, and no opening brace. -/
theorem fill_eq_substitute_of_inert (h : ∀ arg ∈ args.dropLast, Inert arg) :
    fill template args = substitute template args := by
  refine Undisturbed.fill_eq fun index hlt => .inr ?_
  have hinert : ∀ arg ∈ args.take index, Inert arg := by
    rw [List.dropLast_eq_take] at h
    exact fun arg harg => h arg (List.take_subset_take_left args (by omega) harg)
  rw [occurrences, occurrences, substitute, String.toList_ofList,
    countIn_flatMap_render hinert (List.length_take_le _ _)]

end NameBinding.Template

namespace NameBinding.Diagnostic

/-- The text of a report with one argument, or none, holds the argument as it is. -/
theorem text_ofCode (file : String) (span : Span) (code : Nat) {args : List String}
    (h : args.length ≤ 1) :
    (ofCode file span code args).text = Template.substitute
      (((Message.find? code).map (·.template)).getD "Unknown diagnostic.") args := by
  refine Template.fill_eq_substitute_of_inert fun arg harg => ?_
  have hempty : args.dropLast = [] := List.length_eq_zero_iff.mp (by simp; omega)
  rw [hempty] at harg
  exact absurd harg List.not_mem_nil

end NameBinding.Diagnostic
