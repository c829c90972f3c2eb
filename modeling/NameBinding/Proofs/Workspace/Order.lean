import NameBinding.Proofs.Resolve.Order
import NameBinding.Proofs.Workspace.Renaming
import NameBinding.Proofs.Workspace.Total

/-! # The order of resolving

Main statement: after edits all symbols can be resolved in any order. The shape is the same in the
end, and the same problems are reported. -/

namespace NameBinding

open SymbolGraph ResolveM

namespace Setting

variable (setting : Setting) (g : SymbolGraph) {type base : SymbolId}

/-- The bases that some entries name. -/
def basesNamed (site : DeclSite) (notObject : Nat) (entries : List NodeRef) : List SymbolId :=
  entries.filterMap fun entry =>
    match heritageTarget setting site notObject entry ⟨g, []⟩ with
    | .ok base? _ => base?
    | .error .. => none

/-- The bases that a declaration of a class names. -/
def basesOfClassDecl (d : DeclId) : List SymbolId :=
  match setting.site? d with
  | some site => ((site.tree.classDecl? site.decl.node).map fun c =>
      setting.basesNamed g site Message.classBaseNotObject c.extended).getD []
  | none => []

/-- The bases that a declaration of an interface names. -/
def basesOfInterfaceDecl (d : DeclId) : List SymbolId :=
  match setting.site? d with
  | some site => ((site.tree.interfaceDecl? site.decl.node).map fun i =>
      setting.basesNamed g site Message.interfaceBaseNotObject i.extended).getD []
  | none => []

/-- The bases that the entries of a type name. -/
def bases (type : SymbolId) : List SymbolId :=
  (g.sources type .instanceType).flatMap (fun cls =>
      (g.declarations cls).flatMap (setting.basesOfClassDecl g)) ++
    if g.kind? type == some .interface then
      (g.declarations type).flatMap (setting.basesOfInterfaceDecl g) else []

variable {setting g}

theorem mem_basesNamed {site : DeclSite} {notObject : Nat} {entries : List NodeRef}
    {entry : NodeRef} {r : Resolution} (he : entry ∈ entries)
    (hr : heritageTarget setting site notObject entry ⟨g, []⟩ = .ok (some base) r) :
    base ∈ setting.basesNamed g site notObject entries :=
  List.mem_filterMap.mpr ⟨entry, he, by rw [hr]⟩

/-- All bases that entries of a type name are in its list. -/
theorem NamesBase.mem_bases (hg : g.Mirrored) (h : setting.NamesBase g type base) :
    base ∈ setting.bases g type := by
  obtain ⟨site, entry, notObject, hentry, r, hr⟩ := h
  cases hentry with
  | ofClass hside hd hsite hc he =>
      refine List.mem_append_left _ (List.mem_flatMap.mpr ⟨_, hg.mem_sources_iff.mpr hside,
        List.mem_flatMap.mpr ⟨_, hd, ?_⟩⟩)
      rw [basesOfClassDecl, hsite]
      dsimp only
      rw [hc]
      exact mem_basesNamed he hr
  | ofInterface hk hd hsite hi he =>
      refine List.mem_append_right _ ?_
      rw [if_pos (beq_iff_eq.mpr hk)]
      refine List.mem_flatMap.mpr ⟨_, hd, ?_⟩
      rw [basesOfInterfaceDecl, hsite]
      dsimp only
      rw [hi]
      exact mem_basesNamed he hr

theorem NamesBase.lt_size (hg : g.Mirrored) (h : setting.NamesBase g type base) :
    type < g.size := by
  obtain ⟨site, entry, notObject, hentry, -⟩ := h
  cases hentry with
  | ofClass hside => exact (hg.lt_size hside).2
  | ofInterface hk => exact lt_size_of_kind? hk

end Setting

namespace Workspace

variable {c : Chart} {w : Workspace} {x y : SymbolId}

/-- No type is among its own bases, and the import aliases have ranks below the limit, by which
those in the path of another alias come before it. -/
structure Stratified (w : Workspace) : Prop where
  grounded : ∀ x, ¬Relation.TransGen (w.setting.NamesBase w.graph) x x
  ranked : ∃ rank : SymbolId → Nat,
    (∀ {a}, w.graph.kind? a = some .alias → rank a < Limits.aliasDepth) ∧
      ∀ {a c}, w.graph.kind? a = some .alias → w.graph.kind? c = some .alias →
        w.graph.declarations c ≠ [] → c ≠ a →
          w.graph.name c ∈ w.setting.aliasPath w.graph a → rank c < rank a

/-- Numbers for the types and ranks for the aliases are enough, and can be checked. -/
theorem Stratified.of_forall_lt (h : w.Sound) {n : Nat} (hn : w.graph.size = n)
    (number rank : SymbolId → Nat)
    (hbases : ∀ type < n, ∀ base ∈ w.setting.bases w.graph type, number base < number type)
    (haliases : ∀ a < n, w.graph.kind? a = some .alias → rank a < Limits.aliasDepth ∧
      ∀ c < n, w.graph.kind? c = some .alias → c ≠ a →
        w.graph.name c ∈ w.setting.aliasPath w.graph a → rank c < rank a) : w.Stratified where
  grounded := by
    have hg : w.graph.Mirrored := h.graph.toMirrored
    have hstep : ∀ {x y}, w.setting.NamesBase w.graph x y → number y < number x := fun h =>
      hbases _ (hn ▸ h.lt_size hg) _ (h.mem_bases hg)
    have hlt : ∀ {x y}, Relation.TransGen (w.setting.NamesBase w.graph) x y →
        number y < number x := by
      intro x y h
      induction h with
      | single h => exact hstep h
      | tail _ h ih => exact Nat.lt_trans (hstep h) ih
    exact fun x h => Nat.lt_irrefl _ (hlt h)
  ranked := by
    have hlt : ∀ {x}, w.graph.kind? x = some .alias → x < n := fun h => hn ▸ lt_size_of_kind? h
    exact ⟨rank, fun ha => (haliases _ (hlt ha) ha).1, fun ha hc _ hca hname =>
      (haliases _ (hlt ha) ha).2 _ (hlt hc) hc hca hname⟩

/-- The workspace after some symbols were resolved one after another. -/
def resolvedIn (order : List SymbolId) (w : Workspace) : Workspace :=
  w.after (order.map fun x => .demand (.symbol x))

/-! ### Where resolving starts -/

/-- What hangs as a signature or as a parameter is one. -/
theorem Surveyed.kind?_of_attachment (h : Surveyed c w) {a : Attachment}
    (ha : c.attachment x = some a) :
    (∀ edge, a = .signature edge → w.graph.kind? x = some .signature) ∧
      (a = .parameter → w.graph.kind? x = some .parameter) := by
  obtain ⟨q, hq, hacc⟩ := h.charted.attached ha
  cases q with
  | top => exact absurd hacc id
  | shared owner name kind =>
      obtain ⟨-, membership, rfl⟩ := hacc
      exact ⟨fun _ h => absurd h (by simp), fun h => absurd h (by simp)⟩
  | single owner spot =>
      obtain ⟨-, rfl⟩ := hacc
      obtain ⟨d, hd⟩ := h.settled.backed hq
      obtain ⟨hsignature, hparameter, -⟩ := (h.contributes.mp hd).kinded owner spot rfl
      have hkind : w.graph.kind? x = some spot.kind := h.charted.kind? hq
      rw [hkind]
      exact ⟨fun edge h => congrArg some (hsignature edge h), fun h => congrArg some (hparameter h)⟩

theorem Surveyed.kind?_signature (h : Surveyed c w) (hj : c.Joins ⟨x, y, .callSignature⟩) :
    w.graph.kind? y = some .signature := by
  obtain ⟨_, a, -, -, ha, -, hedges⟩ := h.charted.hung_of_joins rfl hj
  have hedge := hedges 0 1
  cases a with
  | member membership => cases membership <;> simp [Attachment.edges] at hedge
  | side => simp [Attachment.edges] at hedge
  | signature edge => exact (h.kind?_of_attachment ha).1 edge rfl
  | parameter => simp [Attachment.edges] at hedge

theorem Surveyed.kind?_parameter (h : Surveyed c w) (hj : c.Joins ⟨x, y, .parameter⟩) :
    w.graph.kind? y = some .parameter := by
  obtain ⟨_, a, -, -, ha, hproper, hedges⟩ := h.charted.hung_of_joins rfl hj
  have hedge := hedges 0 1
  cases a with
  | member membership => cases membership <;> simp [Attachment.edges] at hedge
  | side => simp [Attachment.edges] at hedge
  | signature edge =>
      obtain rfl : edge = .parameter := by simpa [Attachment.edges] using hedge
      have hsignature : EdgeKind.parameter.isSignature := hproper
      exact absurd hsignature (by decide)
  | parameter => exact (h.kind?_of_attachment ha).2 rfl

/-- Edits lead to where resolving starts. -/
theorem exists_start (options : Options) {requests : List Request}
    (h : requests.all Request.isEdit) (htrees : ∀ request ∈ requests, request.SetsTree)
    (ho : ((ofOptions options).after requests).Stratified) :
    ∃ b : Start, b.setting = ((ofOptions options).after requests).setting ∧
      b.graph = ((ofOptions options).after requests).graph := by
  obtain ⟨c, hc, hb, -, -⟩ := exists_bare_of_edits options h
  have hunmarked := not_isResolved_of_edits options h
  have hanswerable := Reachable.answerable ⟨options, requests, rfl⟩
  have htrees' := hasTrees_after options htrees
  generalize (ofOptions options).after requests = w at *
  obtain ⟨rank, hlt, hranked⟩ := ho.ranked
  have hglobal : ∀ {name x}, x ∈ w.program.globalSymbols name → x < w.graph.size := by
    intro name x hx
    obtain ⟨u, hu, hx⟩ := List.mem_flatMap.mp (List.mem_eraseDups.mp hx)
    exact (hc.charted.listed hu hx).1
  have hsides : w.graph.OneSource .instanceType := fun _ _ _ ha hb' =>
    (hc.charted.source_eq_of_isSole rfl (hb hb') rfl ha).1
  exact ⟨{
    setting := w.setting
    graph := w.graph
    sound := hanswerable.sound
    bound := fun he => hc.charted.isStructural (hb he)
    unmarked := hunmarked
    global := hglobal
    count_le := hc.count_le
    error := hanswerable.kind?_error
    sides := hsides
    signatures := fun he => hc.kind?_signature (hb he)
    parameters := fun he => hc.kind?_parameter (hb he)
    trees := htrees'
    rank := rank
    rank_lt := hlt
    ranked := hranked
    grounded := ho.grounded }, rfl, rfl⟩

/-! ### Resolving in an order -/

theorem apply_demand_symbol (w : Workspace) (x : SymbolId) :
    (Request.demand (.symbol x)).apply w =
      { w with
        graph := (Resolution.resolve w.setting ⟨w.graph, w.diagnostics⟩ x).graph
        diagnostics := (Resolution.resolve w.setting ⟨w.graph, w.diagnostics⟩ x).diagnostics } := by
  unfold Request.apply Request.run WorkspaceM.ofResolve Resolution.resolve Demand.run
    Demand.thenItself
  simp only [bind, EStateM.bind]
  cases resolveSymbol w.setting x ⟨w.graph, w.diagnostics⟩ <;> rfl

/-- By induction on the order. -/
theorem resolvedIn_eq (order : List SymbolId) (w : Workspace) : w.resolvedIn order =
      { w with
        graph := (Resolution.resolveAll w.setting order ⟨w.graph, w.diagnostics⟩).graph
        diagnostics :=
          (Resolution.resolveAll w.setting order ⟨w.graph, w.diagnostics⟩).diagnostics } := by
  induction order generalizing w with
  | nil => rfl
  | cons x order ih =>
      have hcons : w.resolvedIn (x :: order) =
        ((Request.demand (.symbol x)).apply w).resolvedIn order := rfl
      rw [hcons, ih, apply_demand_symbol]
      rfl

end Workspace

/-! ### The same scenes -/

namespace Start

variable {b : Start} {s s' : Scene} {x y : SymbolId}

/-- The symbols have the same origin. -/
def Twins (s s' : Scene) (x y : SymbolId) : Prop :=
  x < s.graph.size ∧ y < s'.graph.size ∧ s.origin x = s'.origin y

theorem Twins.flip (h : Twins s s' x y) : Twins s' s y x := ⟨h.2.1, h.1, h.2.2.symm⟩

theorem embeds (hs : b.Valid [] s) (hs' : b.Valid [] s')
    (h : ∀ f, b.Holds s f → b.Holds s' f) :
    SymbolGraph.Embeds (Twins s s') s.graph s'.graph := by
  have hcases : ∀ {x}, x < s.graph.size → ∃ y, Twins s s' x y ∧
      s'.graph.label? y = s.graph.label? x := by
    intro x hx
    by_cases hgiven : x < b.size
    · refine ⟨x, ⟨hx, hs'.lt_size hgiven, ?_⟩, ?_⟩
      · rw [hs.given hgiven, hs'.given hgiven]
      · rw [hs.resolves.label? hgiven, hs'.resolves.label? hgiven]
    · obtain ⟨label, hlabel⟩ :=
        Option.isSome_iff_exists.mp ((isSome_label? s.graph x).trans (decide_eq_true hx))
      obtain ⟨y, -, ho, hy⟩ := h (.symbol (s.origin x) label) ⟨x, Nat.not_lt.mp hgiven, rfl, hlabel⟩
      refine ⟨y, ⟨hx, ?_, ho.symm⟩, hy.trans hlabel.symm⟩
      have hsome := isSome_label? s'.graph y
      rw [hy] at hsome
      simpa using hsome.symm
  have hunique : ∀ {x y z}, Twins s s' x y → Twins s s' x z → y = z := fun hy hz =>
    hs'.injective hy.2.1 hz.2.1 (hy.2.2.symm.trans hz.2.2)
  constructor
  · intro x hx
    obtain ⟨y, hy, -⟩ := hcases hx
    exact ⟨y, hy⟩
  · exact hunique
  · intro x y hxy
    obtain ⟨z, hz, hlabel⟩ := hcases hxy.1
    rwa [hunique hxy hz]
  · intro e y he hy
    obtain ⟨y', z, ho, ho', he'⟩ := h (.edge _ e.kind _) ⟨e.source, e.target, rfl, rfl, he⟩
    obtain ⟨hlt, hlt'⟩ := hs'.wellFormed.lt_size he'
    obtain rfl : y = y' := hs'.injective hy.2.1 hlt (hy.2.2.symm.trans ho.symm)
    exact ⟨z, ⟨(hs.wellFormed.lt_size he).2, hlt', ho'.symm⟩, he'⟩

end Start

namespace Workspace

variable {w w' : Workspace}

/-- Scenes in which the same holds have the same shape. -/
theorem shape_eq_of_holds_iff {b : Start} {s s' : Scene} (hs : b.Valid [] s) (hs' : b.Valid [] s')
    (h : ∀ f, b.Holds s f ↔ b.Holds s' f) (hw : w.graph = s.graph) (hw' : w'.graph = s'.graph) :
    w.snapshot.shape = w'.snapshot.shape := by
  have hback : SymbolGraph.Embeds (flip (Start.Twins s s')) s'.graph s.graph := by
    have hflip : flip (Start.Twins s s') = Start.Twins s' s := by
      funext x y
      exact propext ⟨Start.Twins.flip, Start.Twins.flip⟩
    rw [hflip]
    exact Start.embeds hs' hs fun f => (h f).mpr
  refine Matches.shape_eq (R := Start.Twins s s') ⟨?_, ?_, ?_, ?_⟩
  · exact hw ▸ hs.wellFormed.toMirrored
  · exact hw' ▸ hs'.wellFormed.toMirrored
  · rw [hw, hw']
    exact Start.embeds hs hs' fun f => (h f).mp
  · rw [hw, hw']
    exact hback

/-- Whatever the order in which all symbols are resolved, and however often each of them is asked
for, the shape is the same in the end, and the same problems are reported. -/
theorem resolvedIn_any_order (options : Options) {requests : List Request}
    (h : requests.all Request.isEdit) (htrees : ∀ request ∈ requests, request.SetsTree)
    (ho : ((ofOptions options).after requests).Stratified) {order order' : List SymbolId}
    (horder : ∀ x, x ∈ order ↔ x < ((ofOptions options).after requests).graph.size)
    (horder' : ∀ x, x ∈ order' ↔ x < ((ofOptions options).after requests).graph.size) :
    let w := (ofOptions options).after requests
    (w.resolvedIn order).snapshot.shape = (w.resolvedIn order').snapshot.shape ∧
      ∀ d, d ∈ (w.resolvedIn order).diagnostics ↔ d ∈ (w.resolvedIn order').diagnostics := by
  intro w
  obtain ⟨b, hsetting, hgraph⟩ := exists_start options h htrees ho
  obtain ⟨s, s', hr, hr', hs, hs', hsame⟩ := b.exists_same_facts w.diagnostics
    (fun x => by rw [horder, Start.size, hgraph]) (fun x => by rw [horder', Start.size, hgraph])
  rw [hsetting, hgraph] at hr hr'
  have hleft := resolvedIn_eq order w
  have hright := resolvedIn_eq order' w
  rw [hr] at hleft
  rw [hr'] at hright
  refine ⟨shape_eq_of_holds_iff hs hs' hsame (congrArg Workspace.graph hleft)
    (congrArg Workspace.graph hright), fun d => ?_⟩
  rw [hleft, hright]
  exact hsame (.reported d)

/-- Two documents. Names of the second one lead through two aliases of the first one, and one name
is not declared. -/
def layered : List Request :=
  [.setStatements "one.ts" do
      let a ← Build.classDecl "A" (Flags.single .exported) [] [] []
      let m ← Build.moduleDecl "M" ∅ [a]
      let x ← Build.importEquals "X" ∅ "M"
      let y ← Build.importEquals "Y" ∅ "X.A"
      return [m, x, y],
    .setStatements "two.ts" do
      let b ← Build.classDecl "B" ∅ [← Build.typeReference "Y"] [← Build.typeReference "N"] []
      let v ← Build.singleVariable "v" ∅ (← Build.arrayType (← Build.typeReference "B")) none
      let u ← Build.singleVariable "u" ∅ (← Build.arrayType (← Build.typeReference "Y")) none
      return [b, v, u]]

set_option synthInstance.maxSize 512 in
theorem stratified_layered : ((ofOptions {}).after layered).Stratified :=
  .of_forall_lt ((sound_ofOptions {}).after layered) (n := 17) (by decide +kernel) (fun x => x)
    (fun x => if x = 12 then 1 else 0) (by decide +kernel) (by decide +kernel)

/-- Backwards, and then forwards again. The array types are made in another order, and the same
problem is reported. -/
theorem resolvedIn_any_order_layered : layered.all Request.isEdit ∧
    (∀ request ∈ layered, request.SetsTree) ∧ ((ofOptions {}).after layered).Stratified ∧
    ((ofOptions {}).after layered).graph.size = 17 ∧
    let once := ((ofOptions {}).after layered).resolvedIn (List.range 17)
    let twice := ((ofOptions {}).after layered).resolvedIn
      ((List.range 17).reverse ++ List.range 17)
    once.graph.name 17 = "B[]" ∧ twice.graph.name 17 = "A[]" ∧ once.diagnostics.length = 1 ∧
      once.snapshot.shape = twice.snapshot.shape ∧
      ∀ d, d ∈ once.diagnostics ↔ d ∈ twice.diagnostics := by
  have hedits : layered.all Request.isEdit := by decide +kernel
  have hordered : ∀ request ∈ layered, ∀ tree ∈ request.tree?, tree.Ordered := by decide +kernel
  have htrees : ∀ request ∈ layered, request.SetsTree := fun request hr tree ht =>
    (hordered request hr tree ht).isTree
  have hsize : ((ofOptions {}).after layered).graph.size = 17 := by decide +kernel
  refine ⟨hedits, htrees, stratified_layered, hsize, by decide +kernel, by decide +kernel,
    by decide +kernel, resolvedIn_any_order {} hedits htrees stratified_layered (fun x => ?_)
      fun x => ?_⟩
  · rw [hsize, List.mem_range]
  · rw [hsize, List.mem_append, List.mem_reverse, List.mem_range, or_self]

end Workspace

end NameBinding
