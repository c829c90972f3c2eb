import NameBinding.Enumerated

/-! Sets of flags. A flag owns one bit, and bits that no flag owns are kept. -/

namespace NameBinding

/-- Flags are listed lowest bit first. -/
class Flag (F : Type) extends Enumerated F where
  bit : F → Nat

/-- A set of flags of one sort. -/
structure Flags (F : Type) where
  bits : Nat
  deriving DecidableEq, Repr

namespace Flags

variable {F : Type}

instance : EmptyCollection (Flags F) := ⟨⟨0⟩⟩

instance : Inhabited (Flags F) := ⟨∅⟩

/-- The flags of either set. -/
def union (s t : Flags F) : Flags F := ⟨s.bits ||| t.bits⟩

instance : Union (Flags F) := ⟨union⟩

/-- The flags of both sets. -/
def inter (s t : Flags F) : Flags F := ⟨s.bits &&& t.bits⟩

instance : Inter (Flags F) := ⟨inter⟩

/-- Every bit of `t` is in `s`. -/
def contains (s t : Flags F) : Bool := s.bits &&& t.bits == t.bits

@[simp] theorem bits_empty : (∅ : Flags F).bits = 0 := rfl

@[simp] theorem bits_union (s t : Flags F) : (s ∪ t).bits = s.bits ||| t.bits := rfl

variable [Flag F]

def single (f : F) : Flags F := ⟨1 <<< Flag.bit f⟩

def insert (s : Flags F) (f : F) : Flags F := s ∪ single f

def ofList (fs : List F) : Flags F := fs.foldl insert ∅

def has (s : Flags F) (f : F) : Bool := s.bits.testBit (Flag.bit f)

/-- The set without the bits that no flag owns, as a list. -/
def toList (s : Flags F) : List F := (Enumerated.all : List F).filter s.has

/-- The bits of the set that no flag owns. -/
def unnamed (s : Flags F) : Nat := s.bits ^^^ (s.bits &&& (ofList (Enumerated.all : List F)).bits)

/-- Lower-case hexadecimal with its usual mark. -/
def hexText (n : Nat) : String := "0x" ++ String.ofList (Nat.toDigits 16 n)

/-- The written form of each part: the named flags, then all other bits as one number. -/
def parts (s : Flags F) : List String :=
  s.toList.map Enumerated.name ++ if s.unnamed = 0 then [] else [hexText s.unnamed]

/-- The parts with bars between them. -/
def text (s : Flags F) : String := " | ".intercalate s.parts

/-- Like `text`, but an empty set is written as the number nought. -/
def textOrZero (s : Flags F) : String := if s.bits = 0 then hexText 0 else s.text

@[simp] theorem has_empty (f : F) : (∅ : Flags F).has f = false := by simp [has]

@[simp] theorem has_union (s t : Flags F) (f : F) : (s ∪ t).has f = (s.has f || t.has f) := by
  simp [has]

theorem has_single (f g : F) : (single f).has g = decide (Flag.bit f = Flag.bit g) := by
  simp [has, single, Nat.one_shiftLeft, Nat.testBit_two_pow]

end Flags

end NameBinding
