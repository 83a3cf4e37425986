import Mathlib.Data.List.Basic

/-!
# Chunks — a list in pieces of equal length

The `n`-th chunk of a list, counted from zero; the last one may be shorter.
-/

namespace Xv6.Common

variable {α : Type*}

def chunk (size : ℕ) (l : List α) (n : ℕ) : List α :=
  (l.drop (n * size)).take size

end Xv6.Common
