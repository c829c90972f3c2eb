import NameBinding.Proofs.Text.Occurrences

/-! # The parts of a template

A template is read once, from the left, and a placeholder in it at once. What comes in place of a
placeholder is not read.

Main statement: with one argument more, replacing its placeholder in the text so far gives what
reading the template gives exactly when the arguments before it have not made its placeholder once
more, or it is its own placeholder. -/

namespace NameBinding.Template

variable {index : Nat} {c : Char} {rest text : List Char}

/-! ### Placeholders -/

/-- What stands after the first character of a placeholder. -/
def closing (index : Nat) : List Char := Nat.toDigits 10 index ++ ['}']

theorem toList_placeholder (index : Nat) :
    (placeholder index).toList = '{' :: closing index := by
  simp [placeholder, closing]

def isClosing (c : Char) : Bool := c.isDigit || c == '}'

theorem isClosing_of_mem_closing (h : c ∈ closing index) : isClosing c := by
  rcases List.mem_append.mp h with hdigit | hclose
  · simp [isClosing, Nat.isDigit_of_mem_toDigits (by decide) (by decide) hdigit]
  · simp [isClosing, List.mem_singleton.mp hclose]

theorem not_mem_closing (index : Nat) : '{' ∉ closing index := fun h =>
  absurd (isClosing_of_mem_closing h) (by decide)

/-- The number of the placeholder that a text begins with. -/
def hole? (text : List Char) : Option Nat :=
  let index := Nat.ofDigitChars 10 (text.tail.takeWhile Char.isDigit) 0
  if (placeholder index).toList <+: text then some index else none

theorem hole?_eq_some_iff : hole? text = some index ↔ (placeholder index).toList <+: text := by
  constructor
  · intro h
    rw [hole?] at h
    split at h
    · next hpre => exact Option.some.inj h ▸ hpre
    · cases h
  · rintro ⟨after, rfl⟩
    have hnumber : Nat.ofDigitChars 10
        (((placeholder index).toList ++ after).tail.takeWhile Char.isDigit) 0 = index := by
      have hdigits : ∀ c ∈ Nat.toDigits 10 index, c.isDigit = true := fun c hc =>
        Nat.isDigit_of_mem_toDigits (by decide) (by decide) hc
      rw [toList_placeholder, closing, List.cons_append, List.tail_cons, List.append_assoc,
        List.takeWhile_append_of_pos hdigits]
      simp
    rw [hole?, hnumber, if_pos (List.prefix_append _ _)]

/-! ### Parts -/

/-- A part of a template: a placeholder, or a character outside of the placeholders. -/
inductive Part where
  | char (c : Char)
  | hole (index : Nat)
  deriving DecidableEq, Repr

/-- Reads a text part by part. `skip` counts the characters of a placeholder already read. -/
def partsFrom : Nat → List Char → List Part
  | _, [] => []
  | skip + 1, _ :: rest => partsFrom skip rest
  | 0, c :: rest =>
    match hole? (c :: rest) with
    | some index => .hole index :: partsFrom ((placeholder index).length - 1) rest
    | none => .char c :: partsFrom 0 rest

def parts (text : List Char) : List Part := partsFrom 0 text

theorem partsFrom_eq_drop (skip : Nat) (text : List Char) :
    partsFrom skip text = parts (text.drop skip) := by
  induction skip generalizing text with
  | zero => rfl
  | succ skip ih =>
      cases text with
      | nil => rfl
      | cons c rest => exact ih rest

@[simp] theorem parts_nil : parts [] = [] := rfl

theorem parts_placeholder_append (index : Nat) (text : List Char) :
    parts ((placeholder index).toList ++ text) = .hole index :: parts text := by
  have hhole : hole? ((placeholder index).toList ++ text) = some index :=
    hole?_eq_some_iff.mpr (List.prefix_append _ _)
  have hlength : (placeholder index).length - 1 = (closing index).length := by
    rw [← String.length_toList, toList_placeholder, List.length_cons, Nat.add_sub_cancel]
  rw [toList_placeholder, List.cons_append] at hhole ⊢
  simp only [parts, partsFrom, hhole]
  rw [hlength, partsFrom_eq_drop, List.drop_left, parts]

theorem parts_cons (h : ∀ index, ¬ (placeholder index).toList <+: c :: rest) :
    parts (c :: rest) = .char c :: parts rest := by
  have hhole : hole? (c :: rest) = none :=
    Option.eq_none_iff_forall_ne_some.mpr fun index hindex =>
      h index (hole?_eq_some_iff.mp hindex)
  simp only [parts, partsFrom, hhole]

theorem parts_induction {motive : List Char → Prop} (nil : motive [])
    (hole : ∀ index text, motive text → motive ((placeholder index).toList ++ text))
    (char : ∀ c text, (∀ index, ¬ (placeholder index).toList <+: c :: text) → motive text →
      motive (c :: text)) (text : List Char) : motive text :=
  scan_induction (fun index => (placeholder index).toList) (by simp [toList_placeholder]) nil hole
    char text

/-- How many times a pattern begins in a text. -/
def occurrences (text pattern : String) : Nat := countIn pattern.toList text.toList

theorem countIn_placeholder_append (index other : Nat) (text : List Char) :
    countIn (placeholder index).toList ((placeholder other).toList ++ text) =
      countIn (placeholder index).toList text + if other = index then 1 else 0 := by
  by_cases h : other = index
  · rw [h, if_pos rfl, toList_placeholder, countIn_self_append (not_mem_closing index)]
  · have hpre : ¬ (placeholder index).toList <+: (placeholder other).toList ++ text := by
      intro hpre
      have hother := hole?_eq_some_iff.mpr (List.prefix_append (placeholder other).toList text)
      exact h (Option.some.inj (hother.symm.trans (hole?_eq_some_iff.mpr hpre)))
    rw [toList_placeholder, toList_placeholder, List.cons_append] at hpre ⊢
    rw [countIn_cons, if_neg hpre, if_neg h, countIn_append_of_not_mem (not_mem_closing other)]

/-- A placeholder is nowhere but where it is read as one. -/
theorem count_parts (index : Nat) (text : List Char) :
    (parts text).count (.hole index) = countIn (placeholder index).toList text := by
  induction text using parts_induction with
  | nil => rw [toList_placeholder, parts_nil, List.count_nil, countIn_nil]
  | hole other text ih =>
      rw [parts_placeholder_append, countIn_placeholder_append, List.count_cons, ih]
      simp
  | char c text hpre ih =>
      rw [parts_cons hpre, List.count_cons_of_ne (by simp), ih, countIn_cons,
        if_neg (hpre index), Nat.add_zero]

/-! ### All arguments at once -/

/-- The text in place of a part. A placeholder without an argument stays. -/
def Part.render (args : List String) : Part → List Char
  | .char c => [c]
  | .hole index => (args[index]?.getD (placeholder index)).toList

theorem Part.render_hole_of_some {args : List String} {arg : String} (h : args[index]? = some arg) :
    (Part.hole index).render args = arg.toList := by
  rw [render, h, Option.getD_some]

theorem Part.render_hole_of_none {args : List String} (h : args[index]? = none) :
    (Part.hole index).render args = (placeholder index).toList := by
  rw [render, h, Option.getD_none]

/-- The template with the arguments in place of the placeholders that it has itself. -/
def substitute (template : String) (args : List String) : String :=
  String.ofList ((parts template.toList).flatMap (Part.render args))

theorem flatMap_render_nil (text : List Char) : (parts text).flatMap (Part.render []) = text := by
  induction text using parts_induction with
  | nil => rfl
  | hole index text ih => simp [parts_placeholder_append, Part.render, ih]
  | char c text hpre ih => simp [parts_cons hpre, Part.render, ih]

@[simp] theorem substitute_nil (template : String) : substitute template [] = template := by
  rw [substitute, flatMap_render_nil, String.ofList_toList]

/-- The part as the next argument finds it: a gap for this argument, or some text. -/
def Part.gap (args : List String) (part : Part) : Option (List Char) :=
  if part = .hole args.length then none else some (part.render args)

theorem Part.getD_gap_placeholder (args : List String) (part : Part) :
    (part.gap args).getD (placeholder args.length).toList = part.render args := by
  by_cases h : part = .hole args.length
  · rw [gap, if_pos h, h, Option.getD_none, render_hole_of_none (by simp)]
  · rw [gap, if_neg h, Option.getD_some]

theorem Part.getD_gap (args : List String) (arg : String) (part : Part) :
    (part.gap args).getD arg.toList = part.render (args ++ [arg]) := by
  by_cases h : part = .hole args.length
  · have harg : (args ++ [arg])[args.length]? = some arg := by simp
    rw [gap, if_pos h, h, Option.getD_none, render_hole_of_some harg]
  · rw [gap, if_neg h, Option.getD_some]
    cases part with
    | char c => rfl
    | hole index =>
        have hne : index ≠ args.length := fun hindex => h (hindex ▸ rfl)
        rcases Nat.lt_or_gt_of_ne hne with hlt | hgt
        · rw [render, render, List.getElem?_append_left hlt]
        · rw [render_hole_of_none (by simpa using hgt.le),
            render_hole_of_none (by simpa using Nat.succ_le_of_lt hgt)]

variable (template : String) (args : List String) (arg : String)

/-- The template with the arguments filled in and a gap for the next one. -/
def gaps (template : String) (args : List String) : List (Option (List Char)) :=
  (parts template.toList).map (Part.gap args)

theorem fillGaps_gaps_placeholder :
    fillGaps (gaps template args) (placeholder args.length).toList =
      (substitute template args).toList := by
  rw [fillGaps, gaps, List.flatMap_map, substitute, String.toList_ofList]
  exact congrArg (List.flatMap · _) (funext (Part.getD_gap_placeholder args))

theorem fillGaps_gaps :
    fillGaps (gaps template args) arg.toList = (substitute template (args ++ [arg])).toList := by
  rw [fillGaps, gaps, List.flatMap_map, substitute, String.toList_ofList]
  exact congrArg (List.flatMap · _) (funext (Part.getD_gap args arg))

theorem count_gaps :
    (gaps template args).count none = occurrences template (placeholder args.length) := by
  rw [occurrences, ← count_parts, gaps, List.count, List.countP_map, List.count]
  refine List.countP_congr fun part _ => ?_
  by_cases h : part = .hole args.length <;> simp [Part.gap, h]

/-- One argument more is filled in as if it had come with the ones before it exactly when its
placeholder is still only where the template has it, or is replaced by itself. -/
theorem replace_substitute_eq_iff :
    replace (substitute template args) (placeholder args.length) arg =
        substitute template (args ++ [arg]) ↔
      arg = placeholder args.length ∨
        occurrences (substitute template args) (placeholder args.length) =
          occurrences template (placeholder args.length) := by
  have hfill := replaceFrom_fillGaps_eq_iff (not_mem_closing args.length) (gaps template args)
    arg.toList
  rw [← toList_placeholder, fillGaps_gaps_placeholder, fillGaps_gaps, count_gaps,
    String.toList_inj] at hfill
  rw [replace, ← String.toList_inj, String.toList_ofList]
  exact hfill

end NameBinding.Template
