import NameBinding.Proofs.Program.Outline
import NameBinding.Tree.Builder

/-! # Collecting to different depths

With fewer levels the outline of a document loses what stands in the subtrees that are cut, and
nothing else. So the declarations of a shallow collection are found among those of a deeper one, each
below the one that it was below.

Main statement: a smaller limit only cuts subtrees, and whenever it cuts one the collection says so,
once. -/

namespace NameBinding

/-! ### Cut outlines -/

namespace Outline

/-- The first outline is the second one without some declarations and all that is inside them. -/
inductive Pruned : Outline → Outline → Prop
  | nil : Pruned nil nil
  | skip {o rest : Outline} (e : Entry) (inside : Outline) (h : Pruned o rest) :
      Pruned o (decl e inside rest)
  | keep {inside inside' rest rest' : Outline} (e : Entry) (hinside : Pruned inside inside')
      (hrest : Pruned rest rest') : Pruned (decl e inside rest) (decl e inside' rest')

namespace Pruned

theorem of_nil (o : Outline) : Pruned .nil o := by
  induction o with
  | nil => exact .nil
  | decl e inside rest _ ih => exact .skip e inside ih

theorem append {o o' p p' : Outline} (ho : Pruned o o') (hp : Pruned p p') :
    Pruned (o ++ p) (o' ++ p') := by
  induction ho with
  | nil => exact hp
  | skip e inside _ ih => exact .skip e inside ih
  | keep e hinside _ _ ih => exact .keep e hinside ih

theorem within (es : List Entry) {o o' : Outline} (h : Pruned o o') :
    Pruned (Outline.within es o) (Outline.within es o') := by
  induction es with
  | nil => exact h
  | cons e es ih => exact .keep e ih .nil

theorem parts {inside inside' : NodeRef → Outline} (h : ∀ r, Pruned (inside r) (inside' r))
    (parts : List Part) : Pruned (Part.outline inside parts) (Part.outline inside' parts) := by
  induction parts with
  | nil => exact .nil
  | cons part parts ih =>
      obtain ⟨_ | e, r⟩ := part
      · exact (h r).append ih
      · exact .keep e .nil ((h r).append ih)

end Pruned

end Outline

namespace DocTree

variable {t : DocTree}

/-- By induction on the levels. -/
theorem pruned_outline (t : DocTree) (path : String) {levels deeper : Nat} (h : levels ≤ deeper)
    (r : NodeRef) : (t.outline path levels r).Pruned (t.outline path deeper r) := by
  induction levels generalizing deeper r with
  | zero => exact .of_nil _
  | succ levels ih =>
      cases deeper with
      | zero => exact absurd h (Nat.not_succ_le_zero _)
      | succ deeper =>
          rw [outline, outline]
          cases t.node? r with
          | none => exact .nil
          | some node => exact .within _ (.parts (ih (Nat.le_of_succ_le_succ h)) _)

theorem pruned_rootOutline (t : DocTree) (path : String) {levels deeper : Nat}
    (h : levels ≤ deeper) (root : NodeRef) :
    (t.rootOutline path levels root).Pruned (t.rootOutline path deeper root) := by
  unfold rootOutline
  split
  · exact t.pruned_outline path h root
  · exact .keep _ (t.pruned_outline path h root) .nil

/-! ### Nodes that are cut -/

/-- The walk gets from the first node to the second one, the given number of levels down. -/
inductive Reaches (t : DocTree) : Nat → NodeRef → NodeRef → Prop
  | here (r : NodeRef) : t.Reaches 0 r r
  | part {levels : Nat} {r r' : NodeRef} {part : Part} (hpart : part ∈ t.parts r)
      (h : t.Reaches levels part.node r') : t.Reaches (levels + 1) r r'

theorem mem_cuts_iff {levels : Nat} {r r' : NodeRef} :
    r' ∈ t.cuts levels r ↔ t.Reaches levels r r' ∧ (t.node? r').isSome := by
  induction levels generalizing r with
  | zero =>
      rw [cuts]
      constructor
      · split
        · next hr =>
          intro h
          obtain rfl := List.mem_singleton.mp h
          exact ⟨.here _, hr⟩
        · exact fun h => absurd h List.not_mem_nil
      · rintro ⟨⟨⟩, hr⟩
        rw [if_pos hr]
        exact List.mem_singleton_self _
  | succ levels ih =>
      rw [cuts, List.mem_flatMap]
      constructor
      · rintro ⟨part, hpart, h⟩
        obtain ⟨h, hr⟩ := ih.mp h
        exact ⟨.part hpart h, hr⟩
      · rintro ⟨h, hr⟩
        cases h with
        | part hpart h => exact ⟨_, hpart, ih.mpr ⟨h, hr⟩⟩

theorem cuts_eq_nil_iff {levels : Nat} {r : NodeRef} :
    t.cuts levels r = [] ↔ ∀ r', t.Reaches levels r r' → t.node? r' = none := by
  simp [List.eq_nil_iff_forall_not_mem, mem_cuts_iff]

/-- Where nothing is cut, more levels change nothing. By induction on the levels. -/
theorem outline_eq_of_cuts_eq_nil (path : String) {levels deeper : Nat} (h : levels ≤ deeper)
    {r : NodeRef} (hcuts : t.cuts levels r = []) :
    t.outline path levels r = t.outline path deeper r ∧ t.cuts deeper r = [] := by
  induction levels generalizing deeper r with
  | zero =>
      have hr : t.node? r = none := cuts_eq_nil_iff.mp hcuts r (.here r)
      cases deeper with
      | zero => exact ⟨rfl, hcuts⟩
      | succ deeper => simp [outline, cuts, parts, hr]
  | succ levels ih =>
      cases deeper with
      | zero => exact absurd h (Nat.not_succ_le_zero _)
      | succ deeper =>
          rw [cuts, List.flatMap_eq_nil_iff] at hcuts ⊢
          have hparts := fun part hpart => ih (Nat.le_of_succ_le_succ h) (hcuts part hpart)
          refine ⟨?_, fun part hpart => (hparts part hpart).2⟩
          unfold parts at hparts
          rw [outline, outline]
          cases hr : t.node? r with
          | none => rfl
          | some node =>
              rw [hr] at hparts
              exact congrArg _ (Part.outline_congr fun part hpart => (hparts part hpart).1)

end DocTree

/-! ### Embedded declarations -/

namespace CompilationUnit

/-- The declarations of the first unit are some of the second one's, at the places that `f` gives.
They keep their order and what they are written with, and above them stands nothing else. -/
structure Embeds (f : Nat → Nat) (u v : CompilationUnit) : Prop where
  increasing : ∀ i j, i < j → j < u.decls.size → f i < f j
  entry : ∀ i, i < u.decls.size →
    f i < v.decls.size ∧ (v.decls[f i]?).map Decl.entry = (u.decls[i]?).map Decl.entry
  parent : ∀ i p, i < u.decls.size → (v.Parent p (f i) ↔ ∃ q, u.Parent q i ∧ f q = p)

/-- The same declaration in the other unit. -/
def image (f : Nat → Nat) (parent : Option DeclId) : Option DeclId :=
  parent.map fun p => ⟨p.unit, f p.index⟩

/-- The last declaration of the first unit is put at the end of the second one. -/
def extend (f : Nat → Nat) (u v : CompilationUnit) (i : Nat) : Nat :=
  if i < u.decls.size then f i else v.decls.size

variable {f : Nat → Nat} {u v : CompilationUnit} {parent : Option DeclId}

namespace Embeds

/-- A declaration that only the second unit has. -/
theorem skip (h : Embeds f u v) (at_ : Option DeclId) (e : Entry) : Embeds f u (v.write at_ e) where
  increasing := h.increasing
  entry i hi := by
    obtain ⟨hlt, hentry⟩ := h.entry i hi
    rw [entry_write, if_neg (Nat.ne_of_lt hlt), size_write]
    exact ⟨Nat.lt_succ_of_lt hlt, hentry⟩
  parent i p hi := by
    rw [parent_write_iff, ← h.parent i p hi]
    exact or_iff_left fun hp => absurd hp.1 (Nat.ne_of_lt (h.entry i hi).1)

/-- A declaration that both units have. -/
theorem keep (h : Embeds f u v) (hid : u.id = v.id) (hroot : u.Rooted) (hparent : u.Holds parent)
    (e : Entry) :
    Embeds (extend f u v) (u.write parent e) (v.write (image f parent) e) where
  increasing i j hij hj := by
    rw [size_write] at hj
    have hi : i < u.decls.size := by omega
    rw [extend, if_pos hi, extend]
    split
    · next hj => exact h.increasing i j hij hj
    · exact (h.entry i hi).1
  entry i hi := by
    rw [size_write] at hi
    rw [entry_write, entry_write, size_write, extend]
    rcases Nat.lt_succ_iff_lt_or_eq.mp hi with hi | rfl
    · obtain ⟨hlt, hentry⟩ := h.entry i hi
      rw [if_pos hi, if_neg (Nat.ne_of_lt hi), if_neg (Nat.ne_of_lt hlt)]
      exact ⟨Nat.lt_succ_of_lt hlt, hentry⟩
    · simp
  parent i p hi := by
    rw [size_write] at hi
    rw [parent_write_iff, extend]
    rcases Nat.lt_succ_iff_lt_or_eq.mp hi with hi | rfl
    · have hlt := (h.entry i hi).1
      rw [if_pos hi, or_iff_left fun hp => absurd hp.1 (Nat.ne_of_lt hlt), h.parent i p hi]
      refine exists_congr fun q => ?_
      rw [parent_write_iff, or_iff_left fun hq => absurd hq.1 (Nat.ne_of_lt hi)]
      refine and_congr_right fun hq => ?_
      rw [extend, if_pos (hroot q i hq)]
    · rw [if_neg (Nat.lt_irrefl _)]
      have hnone : ∀ (w : CompilationUnit) (q : Nat), ¬w.Parent q w.decls.size := by
        rintro w q ⟨d, hd, -⟩
        exact absurd (lt_size_of_getElem? hd) (Nat.lt_irrefl _)
      constructor
      · rintro (hp | ⟨-, hp⟩)
        · exact absurd hp (hnone v p)
        · obtain ⟨⟨unit, q⟩, rfl, hq⟩ := Option.map_eq_some_iff.mp hp
          obtain ⟨rfl, hlt⟩ := hparent _ rfl
          refine ⟨q, (parent_write_iff ..).mpr (.inr ⟨rfl, rfl⟩), ?_⟩
          rw [extend, if_pos hlt]
          exact congrArg DeclId.index hq
      · rintro ⟨q, hq, rfl⟩
        rcases (parent_write_iff ..).mp hq with hq | ⟨-, rfl⟩
        · exact absurd hq (hnone u q)
        · rw [extend, if_pos (hparent _ rfl).2]
          exact .inr ⟨rfl, by rw [image, Option.map_some, hid]⟩

end Embeds

/-- By induction on the cut. What is laid in both units is embedded, and what was embedded stays. -/
theorem Embeds.lay {o o' : Outline} (ho : o.Pruned o') (h : Embeds f u v) (hid : u.id = v.id)
    (hroot : u.Rooted) (hparent : u.Holds parent) :
    ∃ g, (∀ i < u.decls.size, g i = f i) ∧ Embeds g (u.lay parent o) (v.lay (image f parent) o') := by
  induction ho generalizing f u v parent with
  | nil => exact ⟨f, fun _ _ => rfl, h⟩
  | @skip o rest e inside _ ih =>
      have hskip : Embeds f u ((v.write (image f parent) e).lay (some v.nextDecl) inside) :=
        lay_induction (fun _ _ _ h => h.skip _ _) (h.skip _ e) _ inside
      exact ih hskip (hid.trans (by simp)) hroot hparent
  | @keep inside inside' rest rest' e _ _ ihi ihr =>
      have hnew := holds_nextDecl_write u parent e
      have hnext : image (extend f u v) (some u.nextDecl) = some v.nextDecl := by
        simp [image, nextDecl, extend, hid]
      obtain ⟨g, hg, hinside⟩ := ihi (h.keep hid hroot hparent e) (by simp [hid])
        (hroot.write hparent e) hnew
      rw [hnext] at hinside
      have hgf : ∀ i < u.decls.size, g i = f i := by
        intro i hi
        rw [hg i (by simp; omega), extend, if_pos hi]
      have himage : image g parent = image f parent := by
        cases parent with
        | none => rfl
        | some p => simp only [image, Option.map_some, hgf p.index (hparent p rfl).2]
      obtain ⟨g', hg', hrest⟩ := ihr hinside (by simp [hid]) ((hroot.write hparent e).lay hnew inside)
        ((hparent.write _ e).lay _ inside)
      rw [himage] at hrest
      refine ⟨g', fun i hi => ?_, hrest⟩
      rw [hg' i (Nat.lt_of_lt_of_le (by simp; omega) (size_le_size_lay ..)), hgf i hi]

/-! ### Collected units -/

/-- One warning tells whether there are nodes below the last level. -/
structure TellsDepth (u : CompilationUnit) (limit : Nat) : Prop where
  once : u.diagnostics.length ≤ 1
  warning : ∀ d ∈ u.diagnostics, d.code = Message.nestedTooDeeply ∧ d.severity = .warning
  silent : u.diagnostics = [] ↔ ∀ r, u.tree.Reaches limit u.root r → u.tree.node? r = none

theorem diagnostics_collect_eq_nil_iff (id : UnitId) (path : String) (t : DocTree) (root : NodeRef)
    (limit : Nat) :
    ((ofTree id path t root).collect limit).diagnostics = [] ↔ t.cuts limit root = [] := by
  rw [collect_ofTree]
  cases t.cuts limit root <;> simp

theorem tellsDepth_collect (id : UnitId) (path : String) (t : DocTree) (root : NodeRef)
    (limit : Nat) : ((ofTree id path t root).collect limit).TellsDepth limit := by
  have hsound := sound_collect limit id path t root
  have hreports : ((ofTree id path t root).collect limit).diagnostics =
      (t.cuts limit root).head?.toList.map ((ofTree id path t root).depthReport limit) := by
    rw [collect_ofTree]
  refine ⟨?_, ?_, ?_⟩
  · rw [hreports, List.length_map]
    cases t.cuts limit root <;> simp
  · intro d hd
    rw [hreports] at hd
    obtain ⟨r, -, rfl⟩ := List.mem_map.mp hd
    exact ⟨rfl, rfl⟩
  · have htree : ((ofTree id path t root).collect limit).tree = t := hsound.tree_eq
    have hroot : ((ofTree id path t root).collect limit).root = root := hsound.root_eq
    rw [diagnostics_collect_eq_nil_iff, htree, hroot, DocTree.cuts_eq_nil_iff]

/-- A smaller limit only cuts subtrees, and a collection that does not report it has cut none. -/
theorem collect_of_limit_le {limit deeper : Nat} (h : limit ≤ deeper) (id : UnitId)
    (path : String) (t : DocTree) (root : NodeRef) :
    (∃ f, Embeds f ((ofTree id path t root).collect limit) ((ofTree id path t root).collect deeper)) ∧
    ((ofTree id path t root).collect limit).TellsDepth limit ∧
    ((ofTree id path t root).collect deeper).TellsDepth deeper ∧
    (((ofTree id path t root).collect limit).diagnostics = [] →
      (ofTree id path t root).collect limit = (ofTree id path t root).collect deeper) := by
  refine ⟨?_, tellsDepth_collect .., tellsDepth_collect .., fun hsilent => ?_⟩
  · have hempty : Embeds (fun i => i) (ofTree id path t root) (ofTree id path t root) :=
      ⟨fun _ _ hij _ => hij, fun i hi => ⟨hi, rfl⟩, fun i p _ => by simp⟩
    have hroot : (ofTree id path t root).Rooted := fun p i hp =>
      absurd hp (not_parent_ofTree id path t root p i)
    obtain ⟨f, -, hf⟩ := hempty.lay (t.pruned_rootOutline path h root) rfl hroot (holds_none _)
    rw [collect_ofTree, collect_ofTree]
    exact ⟨f, hf.increasing, hf.entry, hf.parent⟩
  · have hcuts := (diagnostics_collect_eq_nil_iff id path t root limit).mp hsilent
    obtain ⟨houtline, hdeeper⟩ := DocTree.outline_eq_of_cuts_eq_nil path h hcuts
    have hroot : t.rootOutline path limit root = t.rootOutline path deeper root := by
      simp only [DocTree.rootOutline, houtline]
    rw [collect_ofTree, collect_ofTree, hroot, hcuts, hdeeper, List.head?_nil, Option.toList_none,
      List.map_nil, List.map_nil]

/-- A module with a function that has another one in its body. -/
def nestedFunctions : DocTree × NodeRef :=
  let (root, b) := StateT.run (m := Id) (do
    let inner ← Build.function "g" ∅ [] none (some [])
    let outer ← Build.function "f" ∅ [← Build.parameter "p" ∅ none] none (some [inner])
    Build.sourceFile [← Build.moduleDecl "M.N" ∅ [outer]]) { path := "a.ts" }
  (b.finish root, root)

theorem collect_of_limit_le_nestedFunctions :
    (∃ f, Embeds f ((ofTree 0 "a.ts" nestedFunctions.1 nestedFunctions.2).collect 3)
      ((ofTree 0 "a.ts" nestedFunctions.1 nestedFunctions.2).collect 9)) ∧
    (ofTree 0 "a.ts" nestedFunctions.1 nestedFunctions.2).collect 7 =
      (ofTree 0 "a.ts" nestedFunctions.1 nestedFunctions.2).collect 9 :=
  ⟨(collect_of_limit_le (by decide : 3 ≤ 9) 0 "a.ts" nestedFunctions.1 nestedFunctions.2).1,
    (collect_of_limit_le (by decide : 7 ≤ 9) 0 "a.ts" nestedFunctions.1 nestedFunctions.2).2.2.2
      (by decide +kernel)⟩

end CompilationUnit

end NameBinding
