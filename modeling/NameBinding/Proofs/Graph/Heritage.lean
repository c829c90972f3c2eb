import Mathlib.Data.Finset.Card
import NameBinding.Graph.Members
import NameBinding.Graph.Reach
import NameBinding.Proofs.Graph.Sound

/-! # Chains of bases

A chain of bases goes from a type to one of its bases, to a base of that, and so on. Main statement:
a base that does not lead back to its heir within some steps closes no cycle of about as many. -/

namespace NameBinding.SymbolGraph

/-- As many edges to a base lead from the first type to the second. -/
inductive BaseChain (g : SymbolGraph) : Nat → SymbolId → SymbolId → Prop
  | nil (a : SymbolId) : BaseChain g 0 a a
  | cons {n : Nat} {a b c : SymbolId} (hab : g.hasEdge ⟨a, b, .extends⟩) (hbc : BaseChain g n b c) :
      BaseChain g (n + 1) a c

/-- The types that have a base. -/
def heirs (g : SymbolGraph) : List SymbolId := g.ids.filter fun id => !(g.targets id .extends).isEmpty

/-- Only types that list their bases have some, and a chain that comes back to its start is longer
than the depth. -/
structure Lineal (g : SymbolGraph) (depth : Nat) : Prop where
  heir : ∀ {e : Edge}, g.hasEdge e → e.kind = .extends →
    g.kind? e.source = some .instanceType ∨ g.kind? e.source = some .interface
  long : ∀ {n a}, g.BaseChain (n + 1) a a → depth + 2 ≤ n + 1

variable {g g' : SymbolGraph} {n m depth : Nat} {a b c : SymbolId}

namespace BaseChain

theorem append (h : g.BaseChain n a b) (h' : g.BaseChain m b c) : g.BaseChain (n + m) a c := by
  induction h with
  | nil => rwa [Nat.zero_add]
  | cons hab _ ih =>
      rw [Nat.add_right_comm]
      exact .cons hab (ih h')

theorem mono (h : g'.BaseChain n a c)
    (hsub : ∀ {a b}, g'.hasEdge ⟨a, b, .extends⟩ → g.hasEdge ⟨a, b, .extends⟩) :
    g.BaseChain n a c := by
  induction h with
  | nil a => exact .nil a
  | cons hab _ ih => exact .cons (hsub hab) ih

/-! ### Short cycles -/

/-- The types on a chain, in order. -/
theorem exists_steps (h : g.BaseChain n a c) : ∃ v : Nat → SymbolId, v 0 = a ∧ v n = c ∧
    ∀ i < n, g.hasEdge ⟨v i, v (i + 1), .extends⟩ := by
  induction h with
  | nil a => exact ⟨fun _ => a, rfl, rfl, fun i hi => absurd hi (Nat.not_lt_zero i)⟩
  | @cons n a b c hab _ ih =>
      obtain ⟨v, hfirst, hlast, hv⟩ := ih
      refine ⟨fun i => i.casesOn a v, rfl, hlast, fun i hi => ?_⟩
      cases i with
      | zero =>
          change g.hasEdge ⟨a, v 0, .extends⟩
          rwa [hfirst]
      | succ i => exact hv i (Nat.lt_of_succ_lt_succ hi)

theorem of_steps {v : Nat → SymbolId} {i k : Nat}
    (hv : ∀ j < i + k, g.hasEdge ⟨v j, v (j + 1), .extends⟩) : g.BaseChain k (v i) (v (i + k)) := by
  induction k generalizing i with
  | zero => exact .nil _
  | succ k ih =>
      have hrest : g.BaseChain k (v (i + 1)) (v (i + 1 + k)) := ih fun j hj => hv j (by omega)
      rw [Nat.add_right_comm, Nat.add_assoc] at hrest
      exact .cons (hv i (by omega)) hrest

theorem mem_heirs (hg : g.Mirrored) (hab : g.hasEdge ⟨a, b, .extends⟩) : a ∈ g.heirs := by
  have hb : b ∈ g.targets a .extends := hg.mem_targets_iff.mpr hab
  refine List.mem_filter.mpr ⟨List.mem_range.mpr (hg.lt_size hab).1, ?_⟩
  rw [Bool.not_eq_true', ← Bool.not_eq_true, List.isEmpty_iff]
  exact List.ne_nil_of_mem hb

/-- By induction on the length. On a cycle with more steps than there are heirs some type is met
twice, and what is between is a shorter cycle. -/
theorem exists_short (hg : g.Mirrored) (h : g.BaseChain (n + 1) a a) :
    ∃ m b, m + 1 ≤ g.heirs.length ∧ g.BaseChain (m + 1) b b := by
  induction n using Nat.strongRecOn generalizing a with
  | ind n ih =>
      by_cases hle : n + 1 ≤ g.heirs.length
      · exact ⟨n, a, hle, h⟩
      · obtain ⟨v, -, -, hv⟩ := h.exists_steps
        have hheirs : ∀ i ∈ Finset.range (n + 1), v i ∈ g.heirs.toFinset := fun i hi =>
          List.mem_toFinset.mpr (mem_heirs hg (hv i (Finset.mem_range.mp hi)))
        have hcard : g.heirs.toFinset.card < (Finset.range (n + 1)).card := by
          rw [Finset.card_range]
          exact Nat.lt_of_le_of_lt (List.toFinset_card_le _) (Nat.not_le.mp hle)
        obtain ⟨i, hi, j, hj, hne, heq⟩ :=
          Finset.exists_ne_map_eq_of_card_lt_of_maps_to hcard hheirs
        rw [Finset.mem_range] at hi hj
        have hcut : ∀ {i j}, i < j → j < n + 1 → v i = v j →
            ∃ m b, m + 1 ≤ g.heirs.length ∧ g.BaseChain (m + 1) b b := by
          intro i j hij hj heq
          obtain ⟨k, rfl⟩ := Nat.exists_eq_add_of_lt hij
          have hcycle : g.BaseChain (k + 1) (v i) (v (i + (k + 1))) :=
            of_steps fun l hl => hv l (by omega)
          rw [← Nat.add_assoc, ← heq] at hcycle
          exact ih k (by omega) hcycle
        rcases Nat.lt_or_gt_of_ne hne with hij | hji
        · exact hcut hij hj heq
        · exact hcut hji hi heq.symm

/-! ### One more base -/

/-- A chain that uses a new edge leads up to its source, and on from its target. -/
theorem of_one_more {e : Edge}
    (hsub : ∀ {a b}, g'.hasEdge ⟨a, b, .extends⟩ →
      g.hasEdge ⟨a, b, .extends⟩ ∨ (a = e.source ∧ b = e.target))
    (h : g'.BaseChain n a c) : g.BaseChain n a c ∨
      ∃ i j, g.BaseChain i a e.source ∧ g.BaseChain j e.target c ∧ i + 1 + j ≤ n := by
  induction h with
  | nil a => exact .inl (.nil a)
  | @cons n a b c hab _ ih =>
      rcases hsub hab with hold | ⟨rfl, rfl⟩
      · rcases ih with hbc | ⟨i, j, hi, hj, hle⟩
        · exact .inl (.cons hold hbc)
        · exact .inr ⟨i + 1, j, .cons hold hi, hj, by omega⟩
      · rcases ih with hbc | ⟨i, j, -, hj, hle⟩
        · exact .inr ⟨0, n, .nil _, hbc, by omega⟩
        · exact .inr ⟨0, j, .nil _, hj, by omega⟩

end BaseChain

namespace Lineal

/-- A heritage walk follows the chains of bases down to its depth. -/
theorem extendsWithin (h : g.Lineal depth) (hg : g.Mirrored) (hc : g.BaseChain n a c)
    (hn : n ≤ m) (hkind : g.kind? c ≠ some .error) : g.extendsWithin m a c := by
  have hwithin : Walk.Within g.extendedTypes n a c := by
    clear hn
    induction hc with
    | nil a => exact .here _ _
    | @cons n a b c hab hbc ih =>
        refine .step ?_ (ih hkind)
        have hmembers : ((g.kind? a).map SymbolKind.hasMembers).getD false := by
          rcases h.heir hab rfl with ha | ha <;> simp [ha, SymbolKind.hasMembers, SymbolKind.isType]
        have hfound : g.kind? b ≠ some .error := by
          cases hbc with
          | nil => exact hkind
          | cons hb _ => rcases h.heir hb rfl with hb | hb <;> simp [hb]
        simpa [extendedTypes, listFor, foundTargets, hmembers, hfound] using
          hg.mem_targets_iff.mpr hab
  have hreach : c ∈ Walk.reach g.extendedTypes m [a] :=
    Walk.mem_reach_iff.mpr ⟨a, List.mem_singleton_self a, hwithin.mono hn⟩
  rwa [SymbolGraph.extendsWithin, heritage, List.contains_iff_mem]

theorem mono (h : g.Lineal depth) (hsub : ∀ {e : Edge}, g'.hasEdge e → e.kind = .extends →
    g.hasEdge e ∧ g'.kind? e.source = g.kind? e.source) : g'.Lineal depth where
  heir he hk := by
    obtain ⟨hold, hkind⟩ := hsub he hk
    rw [hkind]
    exact h.heir hold hk
  long hc := h.long (hc.mono fun he => (hsub he rfl).1)

/-- A new base closes no short cycle if no short chain led back to its heir. -/
theorem addBase (h : g.Lineal depth) (hg : g.Mirrored) {e : Edge}
    (hsub : ∀ {x : Edge}, g'.hasEdge x → x.kind = .extends → g.hasEdge x ∨ x = e)
    (hlabel : ∀ x, g'.kind? x = g.kind? x)
    (hheir : g.kind? e.source = some .instanceType ∨ g.kind? e.source = some .interface)
    (hback : ¬g.extendsWithin depth e.target e.source) : g'.Lineal depth where
  heir {x} hx hk := by
    rw [hlabel]
    rcases hsub hx hk with hold | rfl
    · exact h.heir hold hk
    · exact hheir
  long {n a} hc := by
    rcases BaseChain.of_one_more (e := e) (fun {a b} hab =>
      (hsub hab rfl).imp_right fun heq =>
        ⟨congrArg Edge.source heq, congrArg Edge.target heq⟩) hc with hold | ⟨i, j, hi, hj, hle⟩
    · exact h.long hold
    · by_contra hlt
      have hkind : g.kind? e.source ≠ some .error := by
        rcases hheir with hs | hs <;> simp [hs]
      exact hback (h.extendsWithin hg (hj.append hi) (by omega) hkind)

/-- With fewer heirs than that no chain of bases comes back to its start. -/
theorem not_baseChain (h : g.Lineal depth) (hg : g.Mirrored) (hheirs : g.heirs.length ≤ depth + 1) :
    ¬g.BaseChain (n + 1) a a := by
  intro hc
  obtain ⟨m, b, hm, hshort⟩ := hc.exists_short hg
  have hlong := h.long hshort
  omega

end Lineal

end NameBinding.SymbolGraph
