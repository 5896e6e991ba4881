/-! The sizes of `layout_defs.h`, shared by the host code and the kernels. -/

namespace Vkzg

abbrev fieldElementsPerBlob : Nat := 4096
abbrev fieldElementsPerExtBlob : Nat := 8192
abbrev fieldElementsPerCell : Nat := 64
abbrev circulantSize : Nat := 128
abbrev bytesPerBlob : Nat := 131072
abbrev bytesPerProof : Nat := 48

abbrev logBlob : Nat := 12
abbrev logCirculant : Nat := 7

/-! Signed-digit window of both multi-scalar phases. -/

abbrev windowBits : Nat := 8
abbrev numDigits : Nat := 32
abbrev numBuckets : Nat := 128

abbrev phaseATerms : Nat := 64
abbrev phaseAItems : Nat := 2048
abbrev ladderPositions : Nat := 32
abbrev circulantHalf : Nat := 64

/-! Element sizes in 32-bit words. -/

abbrev fpWords : Nat := 12
abbrev frWords : Nat := 8
abbrev affineWords : Nat := 24
abbrev jacobianWords : Nat := 36

/-- Counting-sort bins of the bucket load ordering. -/
abbrev loadClasses : Nat := 64

/-- Lanes per reduced output when the core count is unknown. -/
abbrev reduceLanes : Nat := 4

end Vkzg
