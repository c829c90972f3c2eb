import NameBinding.Proofs.Graph.Members
import NameBinding.Proofs.Workspace.Duality
import NameBinding.Proofs.Workspace.Heritage

/-! # Members of types

Looking up a member and listing all members go along the same bases. Main statement: in a workspace
that requests lead to, both agree, for classes as well, and the list leaves out only what is hidden. -/

namespace NameBinding

open SymbolGraph

namespace SymbolGraph

/-- Looking up a member and listing all members agree, and the list leaves out only what is hidden by
a member of the same name in a nearer type. -/
structure ListsMembers (g : SymbolGraph) : Prop where
  lookup : ∀ {id}, g.kind? id ≠ some .classType →
    ∀ name, g.member? id name = g.firstNamed (g.allMembers id) name
  lookup_class : ∀ {cls inst}, g.kind? cls = some .classType → g.instanceType? cls = some inst →
    ∀ name, g.member? cls name =
      (g.member? inst name).or (g.firstNamed (g.staticMembers cls) name)
  listed_class : ∀ {cls inst}, g.kind? cls = some .classType → g.instanceType? cls = some inst →
    g.allMembers cls = g.allMembers inst
  /-- What is not listed is hidden by a type that the walk meets before. -/
  listed_or_hidden : ∀ {id n type}, g.kind? id ≠ some .classType → n ≤ Limits.heritageDepth →
    Walk.Distance g.HasBase n id type →
    ∃ before after, (g.walkHeritage Limits.heritageDepth id .never ()).1 = before ++ type :: after ∧
      ∀ m ∈ g.members type, m ∈ g.allMembers id ∨
        ∃ earlier ∈ before, ∃ x ∈ g.members earlier, g.name x = g.name m
  /-- Listed members of one name are from one type. -/
  from_one_type : ∀ {id x y a b}, x ∈ g.allMembers id → y ∈ g.allMembers id → g.name x = g.name y →
    x ∈ g.members a → y ∈ g.members b → a = b

end SymbolGraph

namespace Workspace

variable {w : Workspace} {x y id cls inst m type : SymbolId} {name : String}

/-! ### One container -/

/-- A symbol is contained in one other: the one at whose place it hangs, and for a synthesized symbol
the one that it was made for. -/
theorem Reachable.oneTarget_containedBy (h : w.Reachable) : w.graph.OneTarget .containedBy := by
  obtain ⟨c, hc⟩ := h.exists_surveyed
  intro x a b ha hb
  rcases hc.anchored ha rfl with hja | ⟨hsyn, -⟩
  · obtain ⟨q, hq⟩ := Option.isSome_iff_exists.mp hja.placed.1
    have howner : ∀ {z}, w.graph.hasEdge ⟨x, z, .containedBy⟩ → c.place z = some q.owner := by
      intro z hz
      obtain ⟨x', y', r, a, hx', hy', ha, he⟩ :=
        (hc.charted.joined rfl (.inl (by simp [hq]))).mp hz
      obtain ⟨_, -, hacc⟩ := hc.charted.attached ha
      obtain ⟨rfl, rfl, -⟩ := hacc.proper.containedBy_mem_edges_iff.mp he
      rw [Option.some.inj (hq.symm.trans hx')]
      exact hy'
    exact hc.charted.injective (howner ha) (howner hb)
  · exact h.composed.sole (isSynthesized_iff.mp hsyn).1 (.inl ha) (.inl hb)

/-- A symbol is a member of one type. -/
theorem Reachable.eq_of_mem_members (h : w.Reachable) (hx : m ∈ w.graph.members x)
    (hy : m ∈ w.graph.members y) : x = y := by
  have hwell := h.sound.graph.toWellFormed
  have hcontained : ∀ {z}, m ∈ w.graph.members z → w.graph.hasEdge ⟨m, z, .containedBy⟩ := fun hz =>
    hwell.mem_sources_iff.mp (mem_children_of_mem_members hwell hz)
  exact h.oneTarget_containedBy m x y (hcontained hx) (hcontained hy)

/-! ### Looking up and listing -/

/-- What has a base lists it. -/
theorem Reachable.hasBase_eq (h : w.Reachable) : w.graph.HasBase = w.graph.ListsBase := by
  funext a b
  refine propext ⟨fun hbase => ⟨?_, hbase⟩, fun hbase => hbase.2⟩
  rcases h.basesListed _ (h.sound.graph.mem_targets_iff.mp hbase.1) rfl with hk | hk
  · exact ⟨_, hk, rfl⟩
  · exact ⟨_, hk, rfl⟩

/-- Whatever was requested, looking up a member and listing all members agree. -/
theorem Reachable.listsMembers (h : w.Reachable) : ListsMembers w.graph where
  lookup hk _ := member?_eq_firstNamed hk
  lookup_class _ hi _ := (h.sound.graph.side hi).member?_eq
  listed_class _ hi := (h.sound.graph.side hi).allMembers_eq
  listed_or_hidden {id n type} hk hn hd := by
    rw [walkHeritage_never]
    rw [h.hasBase_eq] at hd
    exact allMembers_of_distance hk hn hd
  from_one_type {id x y a b} hx hy hname ha hb := by
    obtain ⟨type, hxt, hyt⟩ := oneTypeEach_allMembers x hx y hy hname
    exact (h.eq_of_mem_members ha hxt).trans (h.eq_of_mem_members hyt hb)

/-- A type with two bases that share a base, and a class with a static member. -/
def diamond : Workspace := (ofOptions {}).after
  [.setStatements "a.ts" do
      let property (name : String) := Build.propertySignature name ∅ none
      let a ← Build.interfaceDecl "A" ∅ [] [← property "x", ← property "y"]
      let b ← Build.interfaceDecl "B" ∅ [← Build.typeReference "A"] [← property "x"]
      let c ← Build.interfaceDecl "C" ∅ [← Build.typeReference "A"] [← property "y"]
      let d ← Build.interfaceDecl "D" ∅
        [← Build.typeReference "B", ← Build.typeReference "C"] []
      let static ← Build.property "x" (Flags.single .static) none
      return [a, b, c, d, ← Build.classDecl "K" ∅ [← Build.typeReference "D"] [] [static]],
    .demand (.symbol 15), .demand (.symbol 16)]

theorem listsMembers_diamond : diamond.Reachable ∧ ListsMembers diamond.graph :=
  have h : diamond.Reachable := ⟨_, _, rfl⟩
  ⟨h, h.listsMembers⟩

/-- The nearer members hide those of the shared base, and members of instances hide static ones. -/
example : diamond.graph.allMembers 16 = [12, 14] ∧ diamond.graph.member? 16 "x" = some 12 ∧
    diamond.graph.staticMembers 16 = [18] ∧ diamond.graph.allMembers 11 = [12, 10] := by
  decide +kernel

end Workspace

end NameBinding
