import NameBinding.Graph.Memo
import NameBinding.Proofs.Graph.Edits

/-! # Remembered answers

An answer about a symbol depends on the edges at that symbol, on its kind, and on the kinds and
flags of the symbols that its edges lead to. Kinds and flags never change, and whatever changes an
edge forgets the answers about both of its ends. So what is remembered is always what would be
answered now, and a graph with answers goes through the same states as one without.

Main statement: in every sequence of edits and questions the answers, also those of the edits, are
those of a graph that remembers nothing, and the questions change neither the edges nor what the
edits answer. -/

namespace NameBinding

/-! ### What an answer depends on -/

namespace SymbolGraph

variable {g g' : SymbolGraph} {id : SymbolId}

theorem mem_outgoing_of_mem_targets {kind : EdgeKind} {t : SymbolId} (h : t ∈ g.targets id kind) :
    ∃ e ∈ g.outgoing id, e.target = t := by
  rw [targets_eq] at h
  obtain ⟨e, he, rfl⟩ := List.mem_map.mp h
  exact ⟨e, (List.mem_filter.mp he).1, rfl⟩

theorem answer_congr (hout : g'.outgoing id = g.outgoing id) (hin : g'.incoming id = g.incoming id)
    (hkind : g'.kind? id = g.kind? id)
    (hends : ∀ e ∈ g.outgoing id, g'.label? e.target = g.label? e.target) (q : GraphQuery) :
    g'.answer id q = g.answer id q := by
  have htargets : ∀ kind, g'.targets id kind = g.targets id kind := fun kind => by
    rw [targets_eq, targets_eq, hout]
  have hsources : ∀ kind, g'.sources id kind = g.sources id kind := fun kind => by
    rw [sources_eq, sources_eq, hin]
  have hlabel : ∀ kind, ∀ t ∈ g.targets id kind, g'.label? t = g.label? t := by
    intro kind t ht
    obtain ⟨e, he, rfl⟩ := mem_outgoing_of_mem_targets ht
    exact hends e he
  have hfound : ∀ kind, g'.foundTargets id kind = g.foundTargets id kind := by
    intro kind
    rw [foundTargets, foundTargets, htargets]
    exact List.filter_congr fun t ht => by rw [kind?_congr (hlabel kind t ht)]
  have hdefinition : ∀ kind, ∀ t ∈ g.targets id kind, g'.isDefinition t = g.isDefinition t :=
    fun kind t ht => has_congr (hlabel kind t ht) _
  have hordered : ∀ kind, g'.orderedSignatures id kind = g.orderedSignatures id kind := by
    intro kind
    rw [orderedSignatures, orderedSignatures, htargets]
    congr 1
    · exact List.filter_congr fun t ht => by rw [hdefinition kind t ht]
    · exact List.filter_congr fun t ht => hdefinition kind t ht
  have hdefinitions : (g.targets id .callSignature).filter g'.isDefinition =
      (g.targets id .callSignature).filter g.isDefinition :=
    List.filter_congr fun t ht => hdefinition _ t ht
  cases q <;>
    simp only [answer, container?, type?, members, publicMembers, staticMembers, extendedTypes,
      implementedTypes, callSignatures, constructSignatures, indexSignatures, definition?,
      parameters, returnType?, listFor, firstTarget, firstSource, hout, hin, hkind, htargets,
      hsources, hfound, hordered, hdefinitions]

theorem invalidate_eq_self (h : g.has id .wellKnown) : g.invalidate id = g := by
  have hget : ∀ x, (g.invalidate id).get? x = g.get? x := by
    intro x
    rw [invalidate, get?_modify]
    by_cases hx : id = x
    · subst hx
      unfold has at h
      cases hs : g.get? id <;> simp_all
    · rw [if_neg hx]
  obtain ⟨symbols⟩ := g
  exact congrArg SymbolGraph.mk (Array.ext_getElem? hget)

end SymbolGraph

/-! ### Single changes -/

namespace MemoGraph

variable {m : MemoGraph}

/-- What is remembered about a symbol. -/
def about (m : MemoGraph) (id : SymbolId) : Answers := m.answers[id]?.getD []

/-- What is remembered is what would be answered now. -/
structure Coherent (m : MemoGraph) : Prop where
  size : m.answers.size = m.graph.size
  answer : ∀ {id q ids}, (m.about id).lookup q = some ids → ids = m.graph.answer id q

theorem about_forget (m : MemoGraph) (id x : SymbolId) :
    (m.forget id).about x = if x = id then [] else m.about x := by
  simp only [forget, about, Array.getElem?_modify]
  grind

theorem coherent_ofGraph (g : SymbolGraph) : (ofGraph g).Coherent where
  size := by simp [ofGraph]
  answer {id q ids} h := by
    simp only [about, ofGraph, Array.getElem?_replicate] at h
    split at h <;> cases h

/-- A change of the edges at some symbols that forgets the answers about these. -/
theorem Coherent.change (h : m.Coherent) {m' : MemoGraph} (hsize : m'.answers.size = m.answers.size)
    (hlabel : ∀ x, m'.graph.label? x = m.graph.label? x)
    (hkept : ∀ x, m'.about x = [] ∨ (m'.about x = m.about x ∧
      m'.graph.outgoing x = m.graph.outgoing x ∧ m'.graph.incoming x = m.graph.incoming x)) :
    m'.Coherent where
  size := hsize.trans (h.size.trans (SymbolGraph.size_eq_of_label? hlabel).symm)
  answer {id q ids} hids := by
    rcases hkept id with hnil | ⟨habout, hout, hin⟩
    · rw [hnil] at hids
      cases hids
    · rw [habout] at hids
      rw [SymbolGraph.answer_congr hout hin (SymbolGraph.kind?_congr (hlabel id))
        (fun e _ => hlabel e.target)]
      exact h.answer hids

/-- Both steps lead to the same graph, and what is remembered stays right. -/
def Follows (f : MemoGraph → MemoGraph) (f' : SymbolGraph → SymbolGraph) : Prop :=
  ∀ m : MemoGraph, m.Coherent → (f m).graph = f' m.graph ∧ (f m).Coherent

namespace Follows

variable {f h : MemoGraph → MemoGraph} {f' h' : SymbolGraph → SymbolGraph}

theorem refl : Follows (fun m => m) (fun g => g) := fun _ hm => ⟨rfl, hm⟩

theorem comp (hh : Follows h h') (hf : Follows f f') :
    Follows (fun m => h (f m)) (fun g => h' (f' g)) := by
  intro m hm
  obtain ⟨hgraph, hm'⟩ := hf m hm
  dsimp only
  rw [← hgraph]
  exact hh _ hm'

theorem ite (p : SymbolGraph → Prop) [DecidablePred p] (hf : Follows f f') (hh : Follows h h') :
    Follows (fun m => if p m.graph then f m else h m) (fun g => if p g then f' g else h' g) := by
  intro m hm
  dsimp only
  split
  · exact hf m hm
  · exact hh m hm

/-- What the graph says can choose the step. -/
theorem choose {α : Type} (a : SymbolGraph → α) {f : α → MemoGraph → MemoGraph}
    {f' : α → SymbolGraph → SymbolGraph} (hf : ∀ a, Follows (f a) (f' a)) :
    Follows (fun m => f (a m.graph) m) (fun g => f' (a g) g) :=
  fun m hm => hf (a m.graph) m hm

theorem foldl {α : Type} {f : MemoGraph → α → MemoGraph} {f' : SymbolGraph → α → SymbolGraph}
    (hf : ∀ a, Follows (f · a) (f' · a)) :
    ∀ as : List α, Follows (as.foldl f ·) (as.foldl f' ·)
  | [] => refl
  | a :: as => (foldl hf as).comp (hf a)

end Follows

theorem follows_insertEdge (e : Edge) : Follows (insertEdge · e) (SymbolGraph.insertEdge · e) := by
  intro m hm
  by_cases he : m.graph.hasEdge e
  · simp [insertEdge, SymbolGraph.insertEdge, he, hm]
  · have heq : m.insertEdge e =
        ({ m with graph := m.graph.insertEdge e }.forget e.source).forget e.target := by
      simp [insertEdge, he]
    dsimp only
    rw [heq]
    refine ⟨rfl, hm.change (by simp [forget]) (SymbolGraph.label?_insertEdge _ e) fun x => ?_⟩
    rw [about_forget, about_forget]
    by_cases hx : x = e.target ∨ x = e.source
    · left
      rcases hx with rfl | rfl <;> simp
    · obtain ⟨ht, hs⟩ := not_or.mp hx
      rw [if_neg ht, if_neg hs]
      refine .inr ⟨rfl, ?_, ?_⟩
      · exact (SymbolGraph.outgoing_insertEdge ..).trans (if_neg fun h => hs h.1)
      · exact (SymbolGraph.incoming_insertEdge ..).trans (if_neg fun h => ht h.1)

/-- An edge that is not listed at an end is not taken from it. -/
theorem follows_eraseEdge (e : Edge) : Follows (eraseEdge · e) (SymbolGraph.eraseEdge · e) := by
  intro m hm
  have hgraph : (m.eraseEdge e).graph = m.graph.eraseEdge e := by
    unfold eraseEdge
    dsimp only
    split <;> split <;> rfl
  have habout : ∀ x, (m.eraseEdge e).about x =
      if x = e.target ∧ e ∈ m.graph.incoming e.target ∨ x = e.source ∧ e ∈ m.graph.outgoing e.source
      then [] else m.about x := by
    intro x
    have hsame : ∀ g, ({ m with graph := g } : MemoGraph).about x = m.about x := fun _ => rfl
    unfold eraseEdge
    simp only [List.contains_iff_mem]
    split <;> split <;> simp only [about_forget, hsame] <;> grind
  have hsize : (m.eraseEdge e).answers.size = m.answers.size := by
    unfold eraseEdge
    dsimp only
    split <;> split <;> simp [forget]
  refine ⟨hgraph, hm.change hsize (fun x => by rw [hgraph, SymbolGraph.label?_eraseEdge])
    fun x => ?_⟩
  rw [hgraph, habout, SymbolGraph.outgoing_eraseEdge, SymbolGraph.incoming_eraseEdge]
  by_cases hx : x = e.target ∧ e ∈ m.graph.incoming e.target ∨
      x = e.source ∧ e ∈ m.graph.outgoing e.source
  · exact .inl (if_pos hx)
  · rw [if_neg hx]
    obtain ⟨ht, hs⟩ := not_or.mp hx
    refine .inr ⟨rfl, ?_, ?_⟩
    · split
      · next h => rw [List.erase_of_not_mem fun he => hs ⟨h, h ▸ he⟩]
      · rfl
    · split
      · next h => rw [List.erase_of_not_mem fun he => ht ⟨h, h ▸ he⟩]
      · rfl

theorem follows_addEdge (e : Edge) : Follows (addEdge · e) (SymbolGraph.addEdge · e) := by
  by_cases hm : e.kind.isMembership
  · simpa only [addEdge, SymbolGraph.addEdge, hm, if_true] using
      (follows_insertEdge e.backward).comp (follows_insertEdge e)
  · simpa only [addEdge, SymbolGraph.addEdge, hm, if_false, Bool.false_eq_true] using
      follows_insertEdge e

theorem follows_removeEdge (e : Edge) : Follows (removeEdge · e) (SymbolGraph.removeEdge · e) := by
  have hback : Follows
      (fun m => if (m.graph.memberships e.source e.target).isEmpty then m.eraseEdge e.backward else m)
      (fun g => if (g.memberships e.source e.target).isEmpty then g.eraseEdge e.backward else g) :=
    .ite (fun g => (g.memberships e.source e.target).isEmpty) (follows_eraseEdge _) .refl
  have hmembers : Follows
      (fun m => (m.graph.memberships e.target e.source).foldl eraseEdge m)
      (fun g => (g.memberships e.target e.source).foldl SymbolGraph.eraseEdge g) :=
    .choose (fun g => g.memberships e.target e.source)
      fun es => .foldl follows_eraseEdge es
  have hpaired : Follows
      (fun m => if e.kind.isMembership then
          if (m.graph.memberships e.source e.target).isEmpty then m.eraseEdge e.backward else m
        else if e.kind = .containedBy then (m.graph.memberships e.target e.source).foldl eraseEdge m
        else m)
      (fun g => if e.kind.isMembership then
          if (g.memberships e.source e.target).isEmpty then g.eraseEdge e.backward else g
        else if e.kind = .containedBy then
          (g.memberships e.target e.source).foldl SymbolGraph.eraseEdge g
        else g) :=
    .ite (fun _ => e.kind.isMembership) hback
      (.ite (fun _ => e.kind = .containedBy) hmembers .refl)
  exact .ite (fun g => g.hasEdge e) (hpaired.comp (follows_eraseEdge e)) .refl

theorem follows_removeTargets (id : SymbolId) (kind : EdgeKind) (ends : List SymbolId) :
    Follows (removeTargets · id kind ends) (SymbolGraph.removeTargets · id kind ends) :=
  .foldl (fun target => follows_removeEdge ⟨id, target, kind⟩) ends

theorem follows_removeOutgoing (id : SymbolId) (kind : EdgeKind) :
    Follows (removeOutgoing · id kind) (SymbolGraph.removeOutgoing · id kind) :=
  .choose (fun g => g.targets id kind) fun ends => follows_removeTargets id kind ends

theorem follows_unlinkAll (id : SymbolId) :
    Follows (unlinkAll · id) (SymbolGraph.unlinkAll · id) :=
  .choose (fun g => g.outgoing id ++ g.incoming id) fun es => .foldl follows_removeEdge es

theorem follows_invalidate (id : SymbolId) :
    Follows (invalidate · id) (SymbolGraph.invalidate · id) := by
  intro m hm
  dsimp only [invalidate]
  split
  · next hwell => exact ⟨(SymbolGraph.invalidate_eq_self hwell).symm, hm⟩
  · refine ⟨rfl, hm.change (by simp [forget]) (SymbolGraph.label?_invalidate _ id) fun x => ?_⟩
    rw [about_forget]
    by_cases hx : x = id
    · exact .inl (if_pos hx)
    · exact .inr ⟨if_neg hx, SymbolGraph.outgoing_invalidate .., SymbolGraph.incoming_invalidate ..⟩

end MemoGraph

/-! ### Edits -/

namespace MemoM

open MemoGraph

variable {α β : Type}

/-- Both steps end alike, with the same answer or error and in the same graph. -/
inductive Agrees : EStateM.Result BindError MemoGraph α → EStateM.Result BindError SymbolGraph α → Prop
  | ok {a m} : m.Coherent → Agrees (.ok a m) (.ok a m.graph)
  | error {e m} : m.Coherent → Agrees (.error e m) (.error e m.graph)

def Mimics (mm : MemoM α) (gm : GraphM α) : Prop :=
  ∀ m : MemoGraph, m.Coherent → Agrees (mm m) (gm m.graph)

namespace Mimics

protected theorem pure (a : α) : Mimics (pure a) (pure a) := fun _ hm => .ok hm

protected theorem throw (e : BindError) : Mimics (throw e : MemoM α) (throw e) :=
  fun _ hm => .error hm

protected theorem bind {mm : MemoM α} {gm : GraphM α} {f : α → MemoM β} {f' : α → GraphM β}
    (hm : Mimics mm gm) (hf : ∀ a, Mimics (f a) (f' a)) : Mimics (mm >>= f) (gm >>= f') := by
  intro m hc
  have h := hm m hc
  change Agrees (EStateM.bind mm f m) (EStateM.bind gm f' m.graph)
  unfold EStateM.bind
  revert h
  generalize mm m = r
  generalize gm m.graph = r'
  rintro (hc' | hc')
  · exact hf _ _ hc'
  · exact .error hc'

theorem get_bind {f : SymbolGraph → MemoM α} {f' : SymbolGraph → GraphM α}
    (hf : ∀ g, Mimics (f g) (f' g)) : Mimics (get >>= fun m => f m.graph) (get >>= f') :=
  fun m hc => hf m.graph m hc

theorem modifyGet {f : MemoGraph → MemoGraph} {f' : SymbolGraph → SymbolGraph}
    (hf : Follows f f') (a : SymbolGraph → α) :
    Mimics (modifyGet fun m => (a m.graph, f m)) (modifyGet fun g => (a g, f' g)) := by
  intro m hc
  obtain ⟨hgraph, hc'⟩ := hf m hc
  change Agrees (.ok (a m.graph) (f m)) (.ok (a m.graph) (f' m.graph))
  rw [← hgraph]
  exact .ok hc'

theorem modify {f : MemoGraph → MemoGraph} {f' : SymbolGraph → SymbolGraph} (hf : Follows f f') :
    Mimics (modify f) (modify f') :=
  modifyGet hf fun _ => PUnit.unit

end Mimics

theorem mimics_require (id : SymbolId) : Mimics (require id) (GraphM.require id) := by
  refine .get_bind (f := fun g => if (g.get? id).isNone then throw (.unknownSymbol id) else pure ())
    fun g => ?_
  split
  · exact .throw _
  · exact .pure _

theorem mimics_link (source target : SymbolId) (kind : EdgeKind) :
    Mimics (link source target kind) (GraphM.link source target kind) := by
  refine (mimics_require target).bind fun _ => (mimics_require source).bind fun _ => ?_
  exact .get_bind (f := fun g => do
      MonadState.modifyGet fun m => (PUnit.unit, MemoGraph.addEdge m ⟨source, target, kind⟩)
      return !g.hasEdge ⟨source, target, kind⟩)
    fun g => (Mimics.modify (follows_addEdge _)).bind fun _ => .pure _

theorem mimics_setSingle (source target : SymbolId) (kind : EdgeKind) :
    Mimics (setSingle source target kind) (GraphM.setSingle source target kind) := by
  refine (mimics_require source).bind fun _ => Mimics.bind (.modify ?_) fun _ =>
    (mimics_link source target kind).bind fun _ => .pure _
  exact .choose (fun g => (g.targets source kind).filter (· != target))
    fun ends => follows_removeTargets source kind ends

theorem mimics_setInstanceType (cls inst : SymbolId) :
    Mimics (setInstanceType cls inst) (GraphM.setInstanceType cls inst) := by
  have hlink : Mimics (do let _ ← link cls inst .instanceType : MemoM PUnit)
      (do let _ ← GraphM.link cls inst .instanceType) :=
    (mimics_link cls inst .instanceType).bind fun _ => .pure _
  refine .get_bind (f := fun g => do
      if (g.instanceType? cls).isSome then throw (.duplicateInstanceType cls)
      let _ ← link cls inst .instanceType) fun g => ?_
  split
  · exact (Mimics.throw _).bind fun _ => hlink
  · exact hlink

/-- Nothing was asked about a new symbol, and no edge leads to it. -/
theorem agrees_alloc {m : MemoGraph} (hm : m.Coherent) (hwf : m.graph.WellFormed) (name : String)
    (kind : SymbolKind) (flags : Flags SymbolFlag) : (m.alloc name kind flags).Coherent where
  size := by simp [MemoGraph.alloc, hm.size]
  answer {id q ids} hids := by
    have habout : (m.alloc name kind flags).about id = m.about id := by
      simp only [MemoGraph.alloc, about, Array.getElem?_push]
      split <;> simp_all
    rw [habout] at hids
    have hid : id < m.graph.size := by
      by_contra hle
      rw [about, Array.getElem?_eq_none (by rw [hm.size]; exact Nat.not_lt.mp hle)] at hids
      cases hids
    have hlabel : ∀ x < m.graph.size,
        (m.graph.alloc name kind flags).label? x = m.graph.label? x := by
      intro x hx
      rw [SymbolGraph.label?_alloc, if_neg (Nat.ne_of_lt hx)]
    have hsame : (m.graph.alloc name kind flags).answer id q = m.graph.answer id q :=
      SymbolGraph.answer_congr (SymbolGraph.outgoing_alloc ..) (SymbolGraph.incoming_alloc ..)
        (SymbolGraph.kind?_congr (hlabel id hid))
        (fun e he => hlabel _ (hwf.lt_size (hwf.mem_outgoing_iff.mp he).2).2) q
    exact (hm.answer hids).trans hsame.symm

theorem agrees_run {m : MemoGraph} (hm : m.Coherent) (hwf : m.graph.WellFormed) (e : GraphEdit) :
    Agrees (run e m) (e.run m.graph) := by
  cases e with
  | alloc name kind flags => exact .ok (agrees_alloc hm hwf name kind flags)
  | link e => exact ((mimics_link e.source e.target e.kind).bind fun _ => .pure _) m hm
  | unlink e =>
      exact Mimics.modifyGet (follows_removeEdge e)
        (fun g => GraphEdit.Answer.changed (g.hasEdge e)) m hm
  | unlinkOutgoing id kind =>
      exact Mimics.modifyGet (follows_removeOutgoing id kind)
        (fun g => GraphEdit.Answer.removed (g.targets id kind)) m hm
  | setSingle e => exact ((mimics_setSingle e.source e.target e.kind).bind fun _ => .pure _) m hm
  | unlinkAll id => exact ((Mimics.modify (follows_unlinkAll id)).bind fun _ => .pure _) m hm
  | setInstanceType cls inst => exact ((mimics_setInstanceType cls inst).bind fun _ => .pure _) m hm
  | invalidate id => exact ((Mimics.modify (follows_invalidate id)).bind fun _ => .pure _) m hm

end MemoM

/-! ### Questions -/

namespace MemoGraph

variable {m : MemoGraph}

/-- A question is answered as the edges say, and only remembered. -/
theorem ask_spec (hm : m.Coherent) (id : SymbolId) (q : GraphQuery) :
    (m.ask id q).1 = m.graph.answer id q ∧ (m.ask id q).2.graph = m.graph ∧
      (m.ask id q).2.Coherent := by
  unfold ask
  cases hq : (m.answers[id]?.getD []).lookup q with
  | some ids => exact ⟨hm.answer hq, rfl, hm⟩
  | none =>
      refine ⟨rfl, rfl, by simp [hm.size], fun {x q' ids} hids => ?_⟩
      simp only [about, Array.getElem?_modify] at hids
      split at hids
      · next hx =>
        subst hx
        cases hold : m.answers[id]? with
        | none => simp [hold] at hids
        | some old =>
            simp only [hold, Option.map_some, Option.getD_some, List.lookup_cons] at hids
            split at hids
            · next heq =>
              obtain rfl := eq_of_beq heq
              exact (Option.some.inj hids).symm
            · exact hm.answer (by rw [about, hold]; exact hids)
      · exact hm.answer hids

end MemoGraph

/-! ### Sequences of edits and questions -/

inductive MemoStep where
  | edit (e : GraphEdit)
  | ask (id : SymbolId) (q : GraphQuery)
  deriving DecidableEq, Repr

inductive MemoStep.Answer where
  | edited (result : Except BindError GraphEdit.Answer)
  | answered (ids : List SymbolId)

def MemoStep.isEdit : MemoStep → Bool
  | .edit _ => true
  | .ask .. => false

/-- What an edit answered. -/
def MemoStep.Answer.edited? : MemoStep.Answer → Option (Except BindError GraphEdit.Answer)
  | .edited result => some result
  | .answered _ => none

/-- How a step ended, without the state that it left. -/
def MemoStep.ending {σ α : Type} : EStateM.Result BindError σ α → Except BindError α
  | .ok a _ => .ok a
  | .error e _ => .error e

namespace MemoGraph

def step (m : MemoGraph) : MemoStep → MemoStep.Answer × MemoGraph
  | .edit e => (.edited (MemoStep.ending (MemoM.run e m)), m.edit e)
  | .ask id q => (.answered (m.ask id q).1, (m.ask id q).2)

/-- All answers, and the graph after the last step. -/
def steps (m : MemoGraph) : List MemoStep → List MemoStep.Answer × MemoGraph
  | [] => ([], m)
  | s :: rest => ((m.step s).1 :: ((m.step s).2.steps rest).1, ((m.step s).2.steps rest).2)

end MemoGraph

namespace SymbolGraph

/-- Nothing is remembered: every question is answered from the edges. -/
def step (g : SymbolGraph) : MemoStep → MemoStep.Answer × SymbolGraph
  | .edit e => (.edited (MemoStep.ending (e.run g)), e.apply g)
  | .ask id q => (.answered (g.answer id q), g)

def steps (g : SymbolGraph) : List MemoStep → List MemoStep.Answer × SymbolGraph
  | [] => ([], g)
  | s :: rest => ((g.step s).1 :: ((g.step s).2.steps rest).1, ((g.step s).2.steps rest).2)

/-- Questions do nothing to the graph and the edits. By induction on the steps. -/
theorem steps_filter_isEdit (g : SymbolGraph) (ss : List MemoStep) :
    (g.steps (ss.filter (·.isEdit))).2 = (g.steps ss).2 ∧
      (g.steps (ss.filter (·.isEdit))).1.filterMap (·.edited?) =
        (g.steps ss).1.filterMap (·.edited?) := by
  induction ss generalizing g with
  | nil => exact ⟨rfl, rfl⟩
  | cons s ss ih =>
      cases s with
      | edit e =>
          obtain ⟨hgraph, hanswers⟩ := ih (e.apply g)
          exact ⟨hgraph, congrArg (MemoStep.ending (e.run g) :: ·) hanswers⟩
      | ask id q => exact ih g

end SymbolGraph

namespace MemoGraph

variable {m : MemoGraph}

theorem step_spec (hm : m.Coherent) (hwf : m.graph.WellFormed) (s : MemoStep) :
    (m.step s).1 = (m.graph.step s).1 ∧ (m.step s).2.graph = (m.graph.step s).2 ∧
      (m.step s).2.Coherent ∧ (m.step s).2.graph.WellFormed := by
  cases s with
  | edit e =>
      have happly := GraphEdit.wellFormed_apply hwf e
      have hagrees := MemoM.agrees_run hm hwf e
      simp only [step, SymbolGraph.step, edit, GraphEdit.apply] at happly ⊢
      revert hagrees happly
      generalize MemoM.run e m = r
      generalize e.run m.graph = r'
      rintro happly (hc | hc)
      · exact ⟨rfl, rfl, hc, happly⟩
      · exact ⟨rfl, rfl, hc, happly⟩
  | ask id q =>
      obtain ⟨hanswer, hgraph, hc⟩ := ask_spec hm id q
      exact ⟨congrArg _ hanswer, hgraph, hc, by rw [step, hgraph]; exact hwf⟩

/-- By induction on the steps. -/
theorem steps_spec (hm : m.Coherent) (hwf : m.graph.WellFormed) (ss : List MemoStep) :
    (m.steps ss).1 = (m.graph.steps ss).1 ∧ (m.steps ss).2.graph = (m.graph.steps ss).2 ∧
      (m.steps ss).2.Coherent := by
  induction ss generalizing m with
  | nil => exact ⟨rfl, rfl, hm⟩
  | cons s ss ih =>
      obtain ⟨hanswer, hgraph, hc, hwf'⟩ := step_spec hm hwf s
      obtain ⟨hanswers, hend, hcoherent⟩ := ih hc hwf'
      rw [hgraph] at hanswers hend
      refine ⟨?_, hend, hcoherent⟩
      rw [steps, SymbolGraph.steps, hanswer, hanswers]

/-- Whatever is done to a graph and asked about it, all answers are those of a graph that remembers
nothing. Without the questions the edits answer the same and lead to the same edges, and whatever is
asked then is answered the same. -/
theorem steps_eq_without_memory (ss : List MemoStep) :
    let after := (ofGraph .empty).steps ss
    let alone := (ofGraph .empty).steps (ss.filter (·.isEdit))
    after.1 = (SymbolGraph.empty.steps ss).1 ∧ after.2.graph = (SymbolGraph.empty.steps ss).2 ∧
      alone.1.filterMap (·.edited?) = after.1.filterMap (·.edited?) ∧
      alone.2.graph = after.2.graph ∧
      ∀ id q, (after.2.ask id q).1 = after.2.graph.answer id q ∧
        (alone.2.ask id q).1 = (after.2.ask id q).1 := by
  have hempty : (ofGraph .empty).Coherent := coherent_ofGraph _
  obtain ⟨hanswers, hgraph, hafter⟩ := steps_spec hempty SymbolGraph.WellFormed.empty ss
  obtain ⟨hanswers', hgraph', halone⟩ :=
    steps_spec hempty SymbolGraph.WellFormed.empty (ss.filter (·.isEdit))
  obtain ⟨hsame, hedited⟩ := SymbolGraph.empty.steps_filter_isEdit ss
  have hedges := hgraph'.trans (hsame.trans hgraph.symm)
  refine ⟨hanswers, hgraph, ?_, hedges, fun id q => ⟨(ask_spec hafter id q).1, ?_⟩⟩
  · rw [hanswers', hanswers]
    exact hedited
  · rw [(ask_spec halone id q).1, (ask_spec hafter id q).1, hedges]

/-- A member that was remembered is forgotten when the edge back from it goes. -/
example : (((ofGraph .empty).steps [.edit (.alloc "a" .module ∅), .edit (.alloc "b" .variable ∅),
    .edit (.link ⟨0, 1, .publicProperty⟩), .ask 0 .members,
    .edit (.unlink ⟨1, 0, .containedBy⟩)]).2.ask 0 .members).1 = [] := by
  decide

end MemoGraph

end NameBinding
