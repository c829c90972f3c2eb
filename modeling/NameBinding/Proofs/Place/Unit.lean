import Mathlib.Data.List.Forall2
import NameBinding.Proofs.Place.Bind

/-! # Units put their symbols at their places

A unit is bound declaration by declaration. A declaration contributes in its own step, or in the
step of the signature that it is a parameter of. -/

namespace NameBinding

open SymbolGraph

namespace Decl

variable {d : Decl} {file : String} {q : Place} {args : List Decl} {i : Nat} {r : Place}

theorem index_of_mem_signaturePlaces {fieldsOf : Option Place}
    (h : (i, r) ∈ d.signaturePlaces file args fieldsOf q) :
    i = d.id.index ∨ ∃ arg ∈ args, i = arg.id.index := by
  rcases List.mem_cons.mp h with heq | h
  · exact .inl (congrArg Prod.fst heq)
  · obtain ⟨arg, harg, hr⟩ := List.mem_flatMap.mp h
    exact .inr ⟨arg, harg, Binding.index_of_mem_argumentPlaces hr⟩

/-- A declaration contributes for itself and for its parameters. -/
theorem index_of_mem_outcome (h : (i, r) ∈ (d.outcome file q args).1) :
    (i = d.id.index ∧ d.kind ≠ .argument) ∨ ∃ arg ∈ args, i = arg.id.index := by
  have hkind : d.kind ≠ .argument := by
    intro hk
    simp [outcome, hk] at h
  suffices hi : i = d.id.index ∨ ∃ arg ∈ args, i = arg.id.index from
    hi.imp_left fun hi => ⟨hi, hkind⟩
  have hmerged : ∀ {kind}, (i, r) ∈ (d.mergedOutcome file q kind).1 → i = d.id.index :=
    fun h => congrArg Prod.fst (List.mem_singleton.mp h)
  have hvalue : ∀ {kind}, (i, r) ∈ (d.valueOutcome file q kind).1 → i = d.id.index :=
    fun h => congrArg Prod.fst (List.mem_singleton.mp h)
  unfold outcome at h
  split at h
  · exact absurd h List.not_mem_nil
  iterate 3 exact .inl (hmerged h)
  · simp only [classOutcome, List.mem_cons, List.not_mem_nil, or_false, Prod.mk.injEq] at h
    rcases h with h | h <;> exact .inl h.1
  iterate 3
    split at h
    · exact index_of_mem_signaturePlaces h
    · rcases List.mem_cons.mp h with h | h
      · exact .inl (congrArg Prod.fst h)
      · exact index_of_mem_signaturePlaces h
  iterate 2
    split at h
    · exact .inl (hmerged h)
    · exact .inl (hvalue h)
  iterate 2 exact .inl (hvalue h)
  iterate 3 exact index_of_mem_signaturePlaces h
  · exact absurd h List.not_mem_nil

end Decl

namespace Chart

theorem Opens.mono {c c' : Chart} {inside : BindM.Inside} {opened : Opened}
    (h : c.Opens inside opened) (hplace : ∀ {x q}, c.place x = some q → c'.place x = some q) :
    c'.Opens inside opened := by
  cases inside <;> cases opened
  · exact h
  · exact h
  · exact h
  · exact Holds.mono h hplace

/-- Only declarations of the unit before the one with the number contribute. -/
def BoundBefore (c : Chart) (u : CompilationUnit) (n : Nat) : Prop :=
  ∀ x r, x.unit = u.id → c.contributes x r → ∃ d, u.decl? x = some d ∧
    if d.kind = .argument then ∃ parent, d.parent = some parent ∧ parent.index < n
    else x.index < n

variable {c c' : Chart} {u : CompilationUnit} {n : Nat} {d : Decl} {opened : List Opened}

theorem BoundBefore.step (h : c.BoundBefore u n) (hnum : u.Numbered) (hnested : u.Nested)
    (hd : u.decls[n]? = some d) (hadds : c.Adds c' u.id (u.outcomeOf opened d).1) :
    c'.BoundBefore u (n + 1) := by
  intro x r hx hr
  rcases (hadds x r).mp hr with hr | ⟨-, hr⟩
  · obtain ⟨d', hd', hbefore⟩ := h x r hx hr
    refine ⟨d', hd', ?_⟩
    split at hbefore
    · next hk =>
      obtain ⟨parent, hp, hlt⟩ := hbefore
      rw [if_pos hk]
      exact ⟨parent, hp, Nat.lt_succ_of_lt hlt⟩
    · next hk =>
      rw [if_neg hk]
      exact Nat.lt_succ_of_lt hbefore
  · have hid := hnum n d hd
    unfold CompilationUnit.outcomeOf at hr
    split at hr
    · exact absurd hr List.not_mem_nil
    · rcases Decl.index_of_mem_outcome hr with ⟨hi, hk⟩ | ⟨arg, harg, hi⟩
      · have hi : x.index = n := by rw [hi, hid]
        refine ⟨d, ?_, ?_⟩
        · rw [CompilationUnit.decl?, if_pos hx, hi, hd]
        · rw [if_neg hk, hi]
          exact Nat.lt_succ_self n
      · obtain ⟨hmem, hk⟩ := List.mem_filter.mp harg
        obtain ⟨y, hy, hya⟩ := List.mem_filterMap.mp hmem
        have hay : arg.id = y := hnum.id_eq hya
        have hxy : x = y := by
          have hyu := (CompilationUnit.decl?_eq_some hya).1
          cases x
          cases y
          simp_all
        obtain ⟨child, hchild, hparent⟩ := hnested.child hd hy
        obtain rfl := Option.some.inj (hya.symm.trans hchild)
        refine ⟨arg, hxy ▸ hya, ?_⟩
        rw [if_pos (by simpa using hk)]
        exact ⟨d.id, hparent, by rw [hid]; exact Nat.lt_succ_self n⟩

end Chart

namespace Binding

variable {c c' : Chart} {b b' : Binding} {u : CompilationUnit} {n : Nat} {d : Decl}
  {opened : Array BindM.Inside} {openedAt : List Opened}

/-- The next declaration contributes nothing yet, and neither do its parameters. -/
theorem fresh_of_boundBefore (h : c.BoundBefore u n) (hnum : u.Numbered) (hnested : u.Nested)
    (hw : b.Within u) (hd : u.decls[n]? = some d) (hkind : d.kind ≠ .argument) :
    Fresh c b u d := by
  have hid := hnum n d hd
  have hdecl : u.decl? d.id = some d := by rw [hid, CompilationUnit.decl?, if_pos rfl, hd]
  refine ⟨hnum, hnested, hw, hdecl, fun r hr => ?_, fun x hx child hchild hk r hr => ?_⟩
  · obtain ⟨d', hd', hbefore⟩ := h d.id r (CompilationUnit.decl?_eq_some hdecl).1 hr
    obtain rfl := Option.some.inj (hdecl.symm.trans hd')
    rw [if_neg hkind, hid] at hbefore
    exact absurd hbefore (Nat.lt_irrefl n)
  · obtain ⟨d', hd', hbefore⟩ := h x r (CompilationUnit.decl?_eq_some hchild).1 hr
    obtain rfl := Option.some.inj (hchild.symm.trans hd')
    obtain ⟨child', hchild', hparent⟩ := hnested.child hd hx
    obtain rfl := Option.some.inj (hchild.symm.trans hchild')
    rw [if_pos hk, hparent] at hbefore
    obtain ⟨parent, hp, hlt⟩ := hbefore
    obtain rfl := Option.some.inj hp
    rw [hid] at hlt
    exact absurd hlt (Nat.lt_irrefl n)

theorem opens_around (h : List.Forall₂ c.Opens opened.toList openedAt) (d : Decl) :
    c.Opens (BindM.around opened d) (CompilationUnit.openedAround openedAt d) := by
  have hget : ∀ {l : List BindM.Inside} {m : List Opened}, List.Forall₂ c.Opens l m → ∀ i : Nat,
      c.Opens (l[i]?.getD .closed) (m[i]?.getD .closed) := by
    intro l m hlm
    induction hlm with
    | nil => exact fun _ => True.intro
    | cons hxy _ ih =>
        intro i
        cases i with
        | zero => exact hxy
        | succ i => exact ih i
  unfold BindM.around CompilationUnit.openedAround
  cases d.parent with
  | none => exact rfl
  | some parent =>
      have hat := hget h parent.index
      rwa [Array.getElem?_toList] at hat

/-- What a step leaves for the next one. -/
structure Progress (c c' : Chart) (u : CompilationUnit) (opened : Array BindM.Inside)
    (openedAt : List Opened) (new : List (Nat × Place)) : Prop where
  settled : c'.Settled
  opens : List.Forall₂ c'.Opens opened.toList openedAt
  adds : c.Adds c' u.id new

theorem Progress.ofRealizes {inside : BindM.Inside} {outcome : Decl.Outcome}
    (h : c.Realizes c' u.id inside outcome)
    (hopened : List.Forall₂ c.Opens opened.toList openedAt)
    (hplace : ∀ {x q}, c.place x = some q → c'.place x = some q) :
    Progress c c' u (opened.push inside) (openedAt ++ [outcome.2]) outcome.1 where
  settled := h.settled
  opens := by
    rw [Array.toList_push]
    refine List.rel_append (hopened.imp fun _ _ ho => ho.mono hplace) ?_
    exact .cons h.opens .nil
  adds := h.adds

theorem Charted.charts_bindNext (h : Charted c b) (hs : c.Settled) (hnum : u.Numbered)
    (hnested : u.Nested) (hw : b.Within u) (hbound : c.BoundBefore u n) (hd : u.decls[n]? = some d)
    (hopened : List.Forall₂ c.Opens opened.toList openedAt) :
    Charts c b (BindM.bindNext u.id opened d) fun opened' c' _ =>
      Progress c c' u opened' (openedAt ++ [(u.outcomeOf openedAt d).2]) (u.outcomeOf openedAt d).1 := by
  have haround := opens_around hopened d
  unfold BindM.bindNext CompilationUnit.outcomeOf
  cases hin : BindM.around opened d <;> cases hat : CompilationUnit.openedAround openedAt d <;>
    rw [hin, hat] at haround
  · refine Charts.pure h ?_
    exact .ofRealizes ⟨hs, True.intro, .refl c u.id⟩ hopened fun hz => hz
  · exact absurd haround (by simp [Chart.Opens])
  · exact absurd haround (by simp [Chart.Opens])
  · next scope q =>
    have hscope : c.Holds scope q := haround
    dsimp only
    have hdecl : Charts c b (BindM.bindDecl u.id scope d) fun inside c' _ =>
        c.Realizes c' u.id inside (d.outcome u.path q (u.arguments d)) := by
      by_cases hk : d.kind = .argument
      · simp only [BindM.bindDecl, Decl.outcome, hk]
        exact Charts.pure h ⟨hs, True.intro, .refl c u.id⟩
      · exact h.charts_bindDecl hs (fresh_of_boundBefore hbound hnum hnested hw hd hk) hscope
    exact hdecl.bind fun inside c' b' hl hr => Charts.pure hl.charted (.ofRealizes hr hopened hl.place)

/-- By induction on the declarations that are left. -/
theorem Charted.charts_bindAll (hnum : u.Numbered) (hnested : u.Nested) (ds : List Decl)
    (h : Charted c b) (hs : c.Settled) (hw : b.Within u) (hbound : c.BoundBefore u n)
    (hds : ds = u.decls.toList.drop n) (hopened : List.Forall₂ c.Opens opened.toList openedAt) :
    Charts c b (ds.foldlM (BindM.bindNext u.id) opened) fun _ c' _ =>
      c'.Settled ∧ c.Adds c' u.id (u.placesAfter openedAt ds) := by
  induction ds generalizing c b n opened openedAt with
  | nil => exact Charts.pure h ⟨hs, .refl c u.id⟩
  | cons d ds ih =>
      have hd : u.decls[n]? = some d := by
        have hhead := congrArg List.head? hds
        rw [List.head?_drop, Array.getElem?_toList] at hhead
        exact hhead.symm
      have htail : ds = u.decls.toList.drop (n + 1) := by
        have htl := congrArg List.tail hds
        rwa [List.tail_cons, List.tail_drop] at htl
      rw [List.foldlM_cons]
      refine (h.charts_bindNext hs hnum hnested hw hbound hd hopened).bind
        fun opened' c' b' hl hp => ?_
      refine (ih hl.charted hp.settled (hw.of_text hl.text) (hbound.step hnum hnested hd hp.adds)
        htail hp.opens).weaken fun _ c'' b'' _ hq => ⟨hq.1, hp.adds.trans hq.2⟩

/-- A unit of which no declaration contributes yet is bound as its text says. -/
theorem Charted.charts_bindUnit (h : Charted c b) (hs : c.Settled) (hu : u ∈ b.program.units)
    (hnested : u.Nested) (hroot : (u.decl? u.rootDecl).isSome)
    (hnew : ∀ x r, x.unit = u.id → ¬c.contributes x r) :
    Charts c b (BindM.bindUnit u.id) fun _ c' _ => c'.Settled ∧ c.Adds c' u.id u.places := by
  unfold BindM.bindUnit
  refine Charts.get_bind ?_
  rw [h.program.unitById?_eq_some_iff.mpr ⟨hu, rfl⟩]
  have hnot : ¬(u.decl? u.rootDecl).isNone := by
    simpa [Option.isNone_iff_eq_none, Option.isSome_iff_ne_none] using hroot
  dsimp only
  rw [if_neg hnot]
  refine Charts.bind (Q := fun _ c' _ => c'.Settled ∧ c.Adds c' u.id u.places) ?_
    fun _ c' b' hl hq => Charts.pure hl.charted hq
  exact h.charts_bindAll (h.program.numbered u hu) hnested u.decls.toList hs ⟨u, hu, rfl⟩
    (n := 0) (fun x r hx hr => absurd hr (hnew x r hx)) rfl .nil

/-- Without a root nothing is bound. -/
theorem bindUnit_eq_error (hp : b.program.WellFormed) (hu : u ∈ b.program.units)
    (hroot : u.decl? u.rootDecl = none) :
    BindM.bindUnit u.id b = .error (.unknownDecl u.rootDecl) b := by
  simp only [BindM.bindUnit, run_get_bind]
  rw [hp.unitById?_eq_some_iff.mpr ⟨hu, rfl⟩]
  simp only [hroot, Option.isNone_none, if_true]
  rfl

end Binding

end NameBinding
