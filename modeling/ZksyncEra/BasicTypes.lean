import Mathlib
/-!
Basic types shared by the components (`zksync_basic_types`): addresses are 160-bit words,
compared as numbers, which is the byte order of `H160`.
-/

namespace ZksyncEra

/-- `Address` (`H160`). -/
abbrev Address := BitVec 160

end ZksyncEra
