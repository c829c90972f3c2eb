import NameBinding.Proofs.Place.Symbols

/-! # Signatures take their places

A signature comes with its parameters, and a parameter of a constructor can come with a field. -/

namespace NameBinding

open SymbolGraph

namespace Chart

variable {c : Chart} {s : SymbolId} {q : Place}

theorem SettledBut.backs (h : c.SettledBut s) (hs : c.place s = some q)
    (hback : ∃ d, c.contributes d q) {x : SymbolId} {r : Place} (hx : c.place x = some r) :
    ∃ d, c.contributes d r := by
  by_cases hxs : x = s
  · subst hxs
    obtain rfl := Option.some.inj (hx.symm.trans hs)
    exact hback
  · exact h.backed hx hxs

end Chart

namespace Binding

variable {c c' : Chart} {b b' : Binding} {s x y : SymbolId} {q o : Place} {d arg : Decl}
  {file : String} {u : CompilationUnit}

/-- The unit is part of the program, perhaps with some declarations bound. -/
def Within (b : Binding) (u : CompilationUnit) : Prop := ∃ v ∈ b.program.units, v.text = u.text

theorem Within.of_text (h : b.Within u) (ht : b'.program.text = b.program.text) :
    b'.Within u := by
  obtain ⟨v, hv, hvu⟩ := h
  obtain ⟨v', hv', hv''⟩ := Program.exists_of_text_eq ht hv
  exact ⟨v', hv', hv''.trans hvu⟩

theorem Within.decl? (h : b.Within u) (hp : b.program.WellFormed) {i : DeclId}
    (hd : u.decl? i = some d) : ∃ d', b.program.decl? i = some d' ∧ d'.unbind = d.unbind := by
  obtain ⟨v, hv, hvu⟩ := h
  have hmap : (v.decl? i).map Decl.unbind = some d.unbind := by
    rw [CompilationUnit.map_unbind_decl?, hvu, ← CompilationUnit.map_unbind_decl?, hd]
    rfl
  obtain ⟨d', hd', hu⟩ := Option.map_eq_some_iff.mp hmap
  exact ⟨d', hp.decl?_eq_some_iff.mpr ⟨v, hv, hd'⟩, hu⟩

theorem Within.knows (h : b.Within u) (hp : b.program.WellFormed) (hn : u.Numbered) {i : DeclId}
    (hd : u.decl? i = some d) : b.Knows u.path d where
  decl := by
    rw [hn.id_eq hd]
    exact h.decl? hp hd
  unit := by
    obtain ⟨v, hv, hvu⟩ := h
    have hid : v.text.id = u.text.id := congrArg (fun t : CompilationUnit => t.id) hvu
    have hpath : v.text.path = u.text.path := congrArg (fun t : CompilationUnit => t.path) hvu
    refine ⟨v, hv, Eq.trans hid ?_, hpath⟩
    rw [hn.id_eq hd]
    exact (CompilationUnit.decl?_eq_some hd).1.symm

/-- A place of one declaration of the unit can be listed under that declaration. -/
theorem Knows.author (h : b.Knows file d) {spot : Spot} (hfile : spot.file = file)
    (hindex : spot.index = d.id.index) (x : SymbolId) :
    ∃ u ∈ b.program.units, u.id = d.id.unit ∧
      (∀ owner spot', Place.single o spot = .single owner spot' →
        spot'.file = u.path ∧ spot'.index = d.id.index) ∧
      ∀ name kind, Place.single o spot = .shared .top name kind → x ∈ u.topLevelSymbols name := by
  obtain ⟨u, hu, hid, hpath⟩ := h.unit
  refine ⟨u, hu, hid, fun owner spot' heq => ?_, fun name kind heq => absurd heq (by simp)⟩
  obtain ⟨-, rfl⟩ := Place.single.inj heq
  exact ⟨hfile.trans hpath.symm, hindex⟩

/-! ### Parameters -/

/-- The step adds the places of one declaration while a signature is half made. -/
def Fills (s : SymbolId) (unit : UnitId) (new : List (Nat × Place)) (c c' : Chart) : Prop :=
  c'.SettledBut s ∧ c'.attachment s = none ∧ c.Adds c' unit new

theorem Charted.charts_bindParameterField (h : Charted c b) (hbut : c.SettledBut s)
    (hs : c.place s = some q) (hback : ∃ d, c.contributes d q) (hnone : c.attachment s = none)
    {inst : SymbolId} (hinst : c.place inst = some o) (hk : b.Knows file arg)
    (hplain : ¬arg.has .accessor) (hunused : ¬c.contributes arg.id (arg.parameterFieldAt file o)) :
    Charts c b (BindM.bindParameterField inst arg) fun _ c' _ =>
      Fills s arg.id.unit [(arg.id.index, arg.parameterFieldAt file o)] c c' := by
  have hflags : ¬arg.flags.toSymbolFlags.has .accessor := by
    have hp : arg.flags.has .accessor = false := by simpa [Decl.has] using hplain
    simp [Flags.toSymbolFlags, Flags.has_carry, hp, Flag.bit]
  have hproper : (arg.parameterFieldAt file o).Proper := by
    refine ⟨?_, fun hside => absurd hside (by simp), fun _ => ⟨by simp [SymbolKind.isMerged], fun _ =>
      ⟨_, rfl, hflags⟩⟩⟩
    change (if arg.has .privateAccess then EdgeKind.privateProperty
      else .publicProperty).isMembership
    split <;> rfl
  unfold BindM.bindParameterField
  refine (h.charts_alloc (q := arg.parameterFieldAt file o)
    (h.place_ne_single hk rfl rfl (fun _ hz => hbut.backs hs hback hz) hunused) hproper rfl
    (fun f hf => (Option.some.inj hf)) (.inr ⟨inst, hinst⟩)).bind ?_
  rintro field c₁ b₁ hl₁ ⟨rfl, rfl, hp₁⟩
  have hfield : (c.seat b.graph.size (arg.parameterFieldAt file o)).place b.graph.size =
      some (arg.parameterFieldAt file o) := by simp [Chart.seat]
  refine (hl₁.charted.charts_contribute hfield
    ((hk.of_text hl₁.text).author rfl rfl _)).bind ?_
  rintro _ c₂ b₂ hl₂ ⟨rfl, hp₂⟩
  have hmember : (if arg.has .privateAccess then EdgeKind.privateProperty
      else .publicProperty).isMembership := hproper.1
  refine (hl₂.charted.charts_link (e := ⟨inst, b.graph.size,
    if arg.has .privateAccess then .privateProperty else .publicProperty⟩) hfield
    (by simp [Chart.contribute, Chart.seat]) (a := .member (some
      (if arg.has .privateAccess then .privateProperty else .publicProperty))) ⟨hmember, rfl⟩
    (hl₂.place (hl₁.place hinst)) fun e' => ?_).weaken ?_
  · simp [Attachment.edges, hmember, Edge.backward]
  · rintro _ c₃ b₃ hl₃ ⟨rfl, -⟩
    have hne : s ≠ b.graph.size := Nat.ne_of_lt (h.lt_size hs)
    refine ⟨hbut.add h.lt_size (by simp [Place.kind?, Decl.parameterFieldAt]) _ _, ?_, ?_⟩
    · simpa [Chart.attach, Chart.contribute, Chart.seat, hne] using hnone
    · exact Chart.adds_contribute c _ _

theorem Fills.trans {unit : UnitId} {new new' : List (Nat × Place)} {c'' : Chart}
    (h : Fills s unit new c c') (h' : Fills s unit new' c' c'') :
    Fills s unit (new ++ new') c c'' :=
  ⟨h'.1, h'.2.1, h.2.2.trans h'.2.2⟩

theorem Charted.charts_bindArgument (h : Charted c b) (hbut : c.SettledBut s)
    (hs : c.place s = some q) (hback : ∃ d, c.contributes d q) (hnone : c.attachment s = none)
    {fieldsOf : Option SymbolId} {fieldsAt : Option Place}
    (hfields : Option.Rel (fun inst o => c.place inst = some o) fieldsOf fieldsAt)
    (hk : b.Knows file arg) (harg : arg.kind = .argument) (hplain : ¬arg.has .accessor)
    (hunused : ∀ r, ¬c.contributes arg.id r) :
    Charts c b (BindM.bindArgument s fieldsOf arg) fun _ c' _ =>
      Fills s arg.id.unit (Decl.argumentPlaces file q fieldsAt arg) c c' := by
  have hproper : (arg.parameterAt file q).Proper :=
    ⟨True.intro, fun hside => absurd hside (by simp), fun _ => ⟨by simp [SymbolKind.isMerged],
      fun hk => absurd hk (by simp)⟩⟩
  unfold BindM.bindArgument
  refine (h.charts_alloc (q := arg.parameterAt file q)
    (h.place_ne_single hk rfl rfl (fun _ hz => hbut.backs hs hback hz) (hunused _)) hproper rfl
    (fun f hf => (Option.some.inj hf)) (.inr ⟨s, hs⟩)).bind ?_
  rintro param c₁ b₁ hl₁ ⟨rfl, rfl, hp₁⟩
  have hparam : (c.seat b.graph.size (arg.parameterAt file q)).place b.graph.size =
      some (arg.parameterAt file q) := by simp [Chart.seat]
  refine (hl₁.charted.charts_record hparam
    ((hk.of_text hl₁.text).named (by simp [Decl.symbolKind?, harg, Place.kind?, Decl.parameterAt]))
    ((hk.of_text hl₁.text).author rfl rfl _)).bind ?_
  rintro _ c₂ b₂ hl₂ rfl
  refine (hl₂.charted.charts_link (e := ⟨s, b.graph.size, .parameter⟩) (a := .parameter) hparam
    (by simp [Chart.contribute, Chart.seat]) ⟨True.intro, rfl⟩
    (hl₂.place (hl₁.place hs)) fun e' => ?_).bind ?_
  · simp [Attachment.edges, EdgeKind.isMembership]
  rintro _ c₃ b₃ hl₃ ⟨rfl, -⟩
  have hne : s ≠ b.graph.size := Nat.ne_of_lt (h.lt_size hs)
  have hfills : Fills s arg.id.unit [(arg.id.index, arg.parameterAt file q)] c
      (((c.seat b.graph.size (arg.parameterAt file q)).contribute arg.id
        (arg.parameterAt file q)).attach b.graph.size .parameter) := by
    refine ⟨hbut.add h.lt_size (by simp [Place.kind?, Decl.parameterAt]) _ _, ?_, ?_⟩
    · simpa [Chart.attach, Chart.contribute, Chart.seat, hne] using hnone
    · exact Chart.adds_contribute c _ _
  cases hfields with
  | none => exact Charts.pure hl₃.charted hfills
  | some hinst =>
      next inst o =>
      dsimp only
      by_cases haccess : arg.has .publicAccess || arg.has .privateAccess
      · have hplaces : Decl.argumentPlaces file q (some o) arg =
            [(arg.id.index, arg.parameterAt file q)] ++
              [(arg.id.index, arg.parameterFieldAt file o)] := by
          simp only [Decl.argumentPlaces, haccess, if_true]
          rfl
        rw [if_pos haccess, hplaces]
        refine (hl₃.charted.charts_bindParameterField hfills.1 (hl₃.place (hl₂.place (hl₁.place hs)))
          ?_ hfills.2.1 (hl₃.place (hl₂.place (hl₁.place hinst)))
          (((hk.of_text hl₁.text).of_text hl₂.text).of_text hl₃.text) hplain ?_).weaken
          fun _ c' b' _ hf => hfills.trans hf
        · obtain ⟨d', hd'⟩ := hback
          exact ⟨d', .inl hd'⟩
        · rintro (hd | ⟨-, heq⟩)
          · exact hunused _ hd
          · simp [Decl.parameterFieldAt, Decl.parameterAt] at heq
      · have hplaces : Decl.argumentPlaces file q (some o) arg =
            [(arg.id.index, arg.parameterAt file q)] := by
          simp only [Decl.argumentPlaces, haccess, if_false, Bool.false_eq_true]
        rw [if_neg haccess, hplaces]
        exact Charts.pure hl₃.charted hfills

theorem index_of_mem_argumentPlaces {fieldsAt : Option Place} {i : Nat} {r : Place}
    (h : (i, r) ∈ Decl.argumentPlaces file q fieldsAt arg) : i = arg.id.index := by
  unfold Decl.argumentPlaces at h
  rcases List.mem_cons.mp h with heq | h
  · exact congrArg Prod.fst heq
  · split at h
    · split at h
      · exact congrArg Prod.fst (List.mem_singleton.mp h)
      · exact absurd h List.not_mem_nil
    · exact absurd h List.not_mem_nil

/-- What a parameter contributes to is itself and a field. -/
theorem kind?_of_mem_argumentPlaces {fieldsAt : Option Place} {i : Nat} {r : Place}
    (h : (i, r) ∈ Decl.argumentPlaces file q fieldsAt arg) :
    r.kind? = some .parameter ∨ r.kind? = some .field := by
  unfold Decl.argumentPlaces at h
  rcases List.mem_cons.mp h with heq | h
  · exact .inl (congrArg (fun p => p.2.kind?) heq)
  · split at h
    · split at h
      · exact .inr (congrArg (fun p => p.2.kind?) (List.mem_singleton.mp h))
      · exact absurd h List.not_mem_nil
    · exact absurd h List.not_mem_nil

/-- The parameters come one after the other. By induction on the children that are left. -/
theorem Charted.charts_arguments (hnum : u.Numbered) (hnested : u.Nested)
    {fieldsOf : Option SymbolId} {fieldsAt : Option Place} (children : List DeclId)
    (hnodup : children.Nodup) (hchild : ∀ x ∈ children, ∃ child, u.decl? x = some child)
    (h : Charted c b) (hw : b.Within u) (hbut : c.SettledBut s) (hs : c.place s = some q)
    (hback : ∃ d, c.contributes d q) (hnone : c.attachment s = none)
    (hfields : Option.Rel (fun inst o => c.place inst = some o) fieldsOf fieldsAt)
    (hunused : ∀ x ∈ children, ∀ child, u.decl? x = some child → child.kind = .argument →
      ∀ r, ¬c.contributes x r) :
    Charts c b (children.forM fun child => do
      match (← get).program.decl? child with
      | none => throw (.unknownDecl child)
      | some arg => if arg.kind = .argument then BindM.bindArgument s fieldsOf arg)
    fun _ c' _ => Fills s u.id (((children.filterMap u.decl?).filter (·.kind = .argument)).flatMap
      (Decl.argumentPlaces u.path q fieldsAt)) c c' := by
  induction children generalizing c b with
  | nil => exact Charts.pure h ⟨hbut, hnone, .refl c u.id⟩
  | cons x xs ih =>
      obtain ⟨hx, hnodup⟩ := List.nodup_cons.mp hnodup
      obtain ⟨child, hd⟩ := hchild x List.mem_cons_self
      obtain ⟨arg, harg, hsame⟩ := hw.decl? h.program hd
      have hidx : arg.id = x := h.program.id_eq harg
      have hunit : x.unit = u.id := (CompilationUnit.decl?_eq_some hd).1
      have hkind : arg.unbind.kind = child.unbind.kind := by rw [hsame]
      replace hkind : arg.kind = child.kind := hkind
      have hchild' := fun y hy => hchild y (List.mem_cons_of_mem x hy)
      rw [List.forM_eq_forM, List.forM_cons, ← List.forM_eq_forM, List.filterMap_cons_some hd]
      by_cases hk : child.kind = .argument
      · have hplaces : Decl.argumentPlaces u.path q fieldsAt child.unbind =
            Decl.argumentPlaces u.path q fieldsAt arg.unbind := by rw [hsame]
        replace hplaces : Decl.argumentPlaces u.path q fieldsAt child =
            Decl.argumentPlaces u.path q fieldsAt arg := hplaces
        have hknows : b.Knows u.path arg := by
          have hc := hw.knows h.program hnum hd
          exact ⟨⟨arg, hidx ▸ harg, rfl⟩, by rw [hidx, ← hnum.id_eq hd]; exact hc.unit⟩
        have hplain : ¬arg.has .accessor := by
          have hp := hnested.plain (CompilationUnit.decl?_eq_some hd).2 hk
          have hacc : arg.unbind.has .accessor = child.unbind.has .accessor := by rw [hsame]
          replace hacc : arg.has .accessor = child.has .accessor := hacc
          rwa [hacc]
        rw [List.filter_cons_of_pos (by simpa using hk), List.flatMap_cons, hplaces]
        have hstep := h.charts_bindArgument hbut hs hback hnone hfields hknows (hkind.trans hk) hplain
          (hidx ▸ hunused x List.mem_cons_self child hd hk)
        rw [hidx, hunit] at hstep
        refine Charts.bind (Q := fun _ c' _ => Fills s u.id
          (Decl.argumentPlaces u.path q fieldsAt arg) c c') ?_ fun _ c₁ b₁ hl hf => ?_
        · refine Charts.get_bind ?_
          simp only [harg, hkind, hk, if_true]
          exact hstep
        · refine (ih hnodup hchild' hl.charted (hw.of_text hl.text) hf.1 (hl.place hs) ?_ hf.2.1 ?_
            ?_).weaken fun _ c' b' _ hf' => hf.trans hf'
          · obtain ⟨d', hd'⟩ := hback
            exact ⟨d', (hf.2.2 d' q).mpr (.inl hd')⟩
          · cases hfields with
            | none => exact .none
            | some hinst => exact .some (hl.place hinst)
          · intro y hy child' hd' hk' r hr
            rcases (hf.2.2 y r).mp hr with hr | ⟨-, hr⟩
            · exact hunused y (List.mem_cons_of_mem x hy) child' hd' hk' r hr
            · have hyx : y = x := by
                obtain ⟨child', hd'⟩ := hchild' y hy
                have hyu : y.unit = u.id := (CompilationUnit.decl?_eq_some hd').1
                have hyi : y.index = x.index := hidx ▸ index_of_mem_argumentPlaces hr
                cases x
                cases y
                simp_all
              exact hx (hyx ▸ hy)
      · rw [List.filter_cons_of_neg (by simpa using hk)]
        refine Charts.bind (Q := fun _ c' b' => c = c' ∧ b = b') ?_ ?_
        · refine Charts.get_bind ?_
          simp only [harg, hkind, hk, if_false]
          exact Charts.pure h ⟨rfl, rfl⟩
        · rintro _ _ _ - ⟨rfl, rfl⟩
          exact ih hnodup hchild' h hw hbut hs hback hnone hfields fun y hy =>
            hunused y (List.mem_cons_of_mem x hy)

theorem proper_signatureAt {edge : EdgeKind} (hedge : edge.isSignature)
    (flags : Option (Flags SymbolFlag)) : (d.signatureAt file o edge flags).Proper :=
  ⟨hedge, fun hside => absurd hside (by simp), fun _ => ⟨by simp [SymbolKind.isMerged],
    fun hk => absurd hk (by simp)⟩⟩

/-- A signature and its parameters. It still has to be hung on its owner. -/
theorem Charted.charts_bindSignature (h : Charted c b) (hs : c.Settled) (hnum : u.Numbered)
    (hnested : u.Nested) (hw : b.Within u) (hd : u.decl? d.id = some d) (hkind : d.kind ≠ .argument)
    {flags : Flags SymbolFlag} {fieldsOf : Option SymbolId} {fieldsAt : Option Place}
    (hfields : Option.Rel (fun inst o => c.place inst = some o) fieldsOf fieldsAt)
    {edge : EdgeKind} (hedge : edge.isSignature) {flags? : Option (Flags SymbolFlag)}
    (hflags : ∀ f, flags? = some f → flags = f) (howned : o = .top ∨ ∃ y, c.place y = some o)
    (hunused : ¬c.contributes d.id (d.signatureAt u.path o edge flags?))
    (hargs : ∀ x ∈ d.children, ∀ child, u.decl? x = some child → child.kind = .argument →
      ∀ r, ¬c.contributes x r) :
    Charts c b (BindM.bindSignature d flags fieldsOf) fun s c' _ =>
      c'.place s = some (d.signatureAt u.path o edge flags?) ∧
        Fills s u.id (d.signaturePlaces u.path (u.arguments d) fieldsAt
          (d.signatureAt u.path o edge flags?)) c c' := by
  have hk := hw.knows h.program hnum hd
  have hunit : d.id.unit = u.id := (CompilationUnit.decl?_eq_some hd).1
  have hget : u.decls[d.id.index]? = some d := (CompilationUnit.decl?_eq_some hd).2
  unfold BindM.bindSignature
  refine (h.charts_alloc (q := d.signatureAt u.path o edge flags?)
    (h.place_ne_single hk rfl rfl (fun _ hz => hs.backed hz) hunused) (proper_signatureAt hedge _)
    rfl hflags howned).bind ?_
  rintro s c₁ b₁ hl₁ ⟨rfl, rfl, hp₁⟩
  have hplace : (c.seat b.graph.size (d.signatureAt u.path o edge flags?)).place b.graph.size =
      some (d.signatureAt u.path o edge flags?) := by simp [Chart.seat]
  have hbut := hs.seat (q := d.signatureAt u.path o edge flags?) h.lt_size
    (by simp [Place.kind?, Decl.signatureAt])
  refine (hl₁.charted.charts_contribute hplace ((hk.of_text hl₁.text).author rfl rfl _)).bind ?_
  rintro _ c₂ b₂ hl₂ ⟨rfl, hp₂⟩
  have hfirst : Fills b.graph.size u.id [(d.id.index, d.signatureAt u.path o edge flags?)] c
      ((c.seat b.graph.size (d.signatureAt u.path o edge flags?)).contribute d.id
        (d.signatureAt u.path o edge flags?)) := by
    refine ⟨hbut.contribute _ _, by simp [Chart.contribute, Chart.seat], ?_⟩
    rw [← hunit]
    exact Chart.adds_contribute c _ _
  have hfields₂ : Option.Rel (fun inst o' => ((c.seat b.graph.size
      (d.signatureAt u.path o edge flags?)).contribute d.id
        (d.signatureAt u.path o edge flags?)).place inst = some o') fieldsOf fieldsAt := by
    cases hfields with
    | none => exact .none
    | some hinst => exact .some (hl₂.place (hl₁.place hinst))
  refine (hl₂.charted.charts_arguments hnum hnested d.children (hnested.nodup hget) ?_
    ((hw.of_text hl₁.text).of_text hl₂.text) hfirst.1 hplace ⟨d.id, .inr ⟨rfl, rfl⟩⟩ hfirst.2.1
    hfields₂ ?_).bind fun _ c₃ b₃ hl₃ hf => ?_
  · intro x hx
    obtain ⟨child, hc, -⟩ := hnested.child hget hx
    exact ⟨child, hc⟩
  · rintro x hx child hc hck r (hr | ⟨rfl, -⟩)
    · exact hargs x hx child hc hck r hr
    · rw [hd] at hc
      exact hkind (Option.some.inj hc ▸ hck)
  · exact Charts.pure hl₃.charted ⟨hl₃.place hplace, hfirst.trans hf⟩

end Binding

end NameBinding
