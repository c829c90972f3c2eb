/-! Bounds on the walks that malformed programs could make very long. -/

namespace NameBinding.Limits

/-- Levels of bases followed when members are looked up. -/
def heritageDepth : Nat := 256

/-- Enclosing declarations searched for a name. -/
def scopePathDepth : Nat := 128

/-- Levels of tree nodes searched for declarations. -/
def collectDepth : Nat := 1000

/-- Aliases followed one from another. -/
def aliasDepth : Nat := 128

end NameBinding.Limits
