import Mathlib.Logic.Basic

/-! # Contracts of steps that can fail

A failed step keeps what it wrote before it failed, so a contract also speaks of the state that a
failure leaves behind. -/

namespace NameBinding

variable {ε σ α β : Type}

/-! ### Single steps -/

section Single

variable (s : σ)

theorem run_get_bind (f : σ → EStateM ε σ α) : (get >>= f) s = f s s := rfl

theorem run_modify_bind (f : σ → σ) (next : PUnit → EStateM ε σ α) :
    (modify f >>= next) s = next ⟨⟩ (f s) := rfl

theorem run_bind_of_ok {m : EStateM ε σ α} {f : α → EStateM ε σ β} {s s' : σ} {a : α}
    (h : m s = .ok a s') : (m >>= f) s = f a s' := by
  simp only [bind, EStateM.bind, h]

theorem run_throw (e : ε) : (throw e : EStateM ε σ α) s = .error e s := rfl

end Single

/-! ### Contracts -/

/-- From a state with `pre`, the step answers with `post`, or it fails and leaves `fail`. -/
def Contract (pre : σ → Prop) (m : EStateM ε σ α) (post : α → σ → Prop) (fail : σ → Prop) : Prop :=
  ∀ s, pre s → match m s with
    | .ok a s' => post a s'
    | .error _ s' => fail s'

namespace Contract

variable {pre pre' fail fail' : σ → Prop} {post post' : α → σ → Prop} {m : EStateM ε σ α}

protected theorem weaken (h : Contract pre m post fail) (hpre : ∀ s, pre' s → pre s)
    (hpost : ∀ a s, post a s → post' a s) (hfail : ∀ s, fail s → fail' s) :
    Contract pre' m post' fail' := by
  intro s hs
  have hm := h s (hpre s hs)
  split at hm
  · exact hpost _ _ hm
  · exact hfail _ hm

/-- A part of the precondition that does not depend on the state. -/
protected theorem assuming {fact : Prop} (h : fact → Contract pre m post fail) :
    Contract (fun s => fact ∧ pre s) m post fail := fun s hs => h hs.1 s hs.2

protected theorem pure (a : α) (h : ∀ s, pre s → post a s) :
    Contract pre (pure a : EStateM ε σ α) post fail := h

protected theorem throw (e : ε) (h : ∀ s, pre s → fail s) :
    Contract pre (throw e : EStateM ε σ α) post fail := h

/-- What a step that succeeded leaves behind. -/
protected theorem ok (h : Contract pre m post fail) {s s' : σ} {a : α} (hs : pre s)
    (hr : m s = .ok a s') : post a s' := by
  have hm := h s hs
  rwa [hr] at hm

/-- The run from a state that is known. -/
protected theorem run (m : EStateM ε σ α) (s : σ) :
    Contract (· = s) m (fun a s' => m s = .ok a s') fun _ => True := by
  rintro _ rfl
  split
  · next hr => exact hr
  · exact True.intro

/-- Two contracts of one step. -/
protected theorem both (h : Contract pre m post fail) (h' : Contract pre m post' fail') :
    Contract pre m (fun a s => post a s ∧ post' a s) fun s => fail s ∧ fail' s := by
  intro s hs
  have hm := h s hs
  have hm' := h' s hs
  split at hm
  · next hr =>
    rw [hr] at hm'
    exact ⟨hm, hm'⟩
  · next hr =>
    rw [hr] at hm'
    exact ⟨hm, hm'⟩

protected theorem bind {f : α → EStateM ε σ β} {Q : α → σ → Prop} {post : β → σ → Prop}
    (hm : Contract pre m Q fail) (hf : ∀ a, Contract (Q a) (f a) post fail) :
    Contract pre (m >>= f) post fail := by
  intro s hs
  have h := hm s hs
  change match (match m s with
    | .ok a s => f a s
    | .error e s => .error e s) with
    | .ok b s' => post b s'
    | .error _ s' => fail s'
  cases hms : m s with
  | ok a s' =>
      rw [hms] at h
      exact hf a s' h
  | error e s' =>
      rw [hms] at h
      exact h

protected theorem modify {f : σ → σ} {post : PUnit → σ → Prop} (h : ∀ s, pre s → post ⟨⟩ (f s)) :
    Contract pre (modify f : EStateM ε σ PUnit) post fail := h

protected theorem modifyGet {f : σ → α × σ} (h : ∀ s, pre s → post (f s).1 (f s).2) :
    Contract pre (modifyGet f : EStateM ε σ α) post fail := h

/-- The state before the step is named. -/
protected theorem each (h : ∀ s, pre s → Contract (· = s) m post fail) : Contract pre m post fail :=
  fun s hs => h s hs s rfl

/-- What is read stands for the state from then on. -/
protected theorem get_bind {f : σ → EStateM ε σ α}
    (h : ∀ s, pre s → Contract (· = s) (f s) post fail) : Contract pre (get >>= f) post fail :=
  fun s hs => h s hs s rfl

end Contract

/-- The step keeps an invariant, also when it fails, and what it answers has a property. -/
def Keeps (inv : σ → Prop) (m : EStateM ε σ α) (post : α → Prop := fun _ => True) : Prop :=
  Contract inv m (fun a s => inv s ∧ post a) inv

namespace Keeps

variable {inv : σ → Prop} {Q Q' : α → Prop} {m : EStateM ε σ α}

protected theorem weaken (h : Keeps inv m Q) (hpost : ∀ a, Q a → Q' a) : Keeps inv m Q' :=
  Contract.weaken h (fun _ hs => hs) (fun a _ ha => ⟨ha.1, hpost a ha.2⟩) fun _ hs => hs

protected theorem trivial (h : Keeps inv m Q) : Keeps inv m :=
  Keeps.weaken h fun _ _ => True.intro

protected theorem pure {a : α} (h : Q a) : Keeps inv (pure a : EStateM ε σ α) Q :=
  Contract.pure a fun _ hs => ⟨hs, h⟩

protected theorem throw (e : ε) : Keeps inv (throw e : EStateM ε σ α) Q :=
  Contract.throw e fun _ hs => hs

protected theorem bind {f : α → EStateM ε σ β} {Q' : β → Prop} (hm : Keeps inv m Q)
    (hf : ∀ a, Q a → Keeps inv (f a) Q') : Keeps inv (m >>= f) Q' :=
  Contract.bind hm fun a s hs => hf a hs.2 s hs.1

protected theorem map {f : α → β} {Q' : β → Prop} (hm : Keeps inv m Q) (hf : ∀ a, Q a → Q' (f a)) :
    Keeps inv (f <$> m) Q' :=
  hm.bind fun a ha => Keeps.pure (hf a ha)

protected theorem modify {f : σ → σ} (h : ∀ s, inv s → inv (f s)) :
    Keeps inv (modify f : EStateM ε σ PUnit) :=
  Contract.modify fun s hs => ⟨h s hs, True.intro⟩

protected theorem get_bind {f : σ → EStateM ε σ α} (h : ∀ s, inv s → Keeps inv (f s) Q) :
    Keeps inv (get >>= f) Q := fun s hs => h s hs s hs

protected theorem forM {f : α → EStateM ε σ PUnit} :
    ∀ (as : List α), (∀ a ∈ as, Keeps inv (f a)) → Keeps inv (as.forM f)
  | [], _ => Keeps.pure True.intro
  | a :: as, h => (h a List.mem_cons_self).bind fun _ _ =>
      Keeps.forM as fun b hb => h b (List.mem_cons_of_mem a hb)

protected theorem findSomeM? {f : α → EStateM ε σ (Option β)} {Q : Option β → Prop}
    (hnone : Q none) :
    ∀ (as : List α), (∀ a ∈ as, Keeps inv (f a) Q) → Keeps inv (as.findSomeM? f) Q
  | [], _ => Keeps.pure hnone
  | a :: as, h => (h a List.mem_cons_self).bind fun b hb => by
      cases b with
      | none => exact Keeps.findSomeM? hnone as fun b hb => h b (List.mem_cons_of_mem a hb)
      | some b => exact Keeps.pure hb

protected theorem foldlM {f : β → α → EStateM ε σ β} {Q : β → Prop} :
    ∀ (as : List α) (b : β), Q b → (∀ b, Q b → ∀ a ∈ as, Keeps inv (f b a) Q) →
      Keeps inv (as.foldlM f b) Q
  | [], _, hb, _ => Keeps.pure hb
  | a :: as, b, hb, h => (h b hb a List.mem_cons_self).bind fun b' hb' =>
      Keeps.foldlM as b' hb' fun b hb x hx => h b hb x (List.mem_cons_of_mem a hx)

end Keeps

end NameBinding
