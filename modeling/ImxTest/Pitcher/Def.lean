import Mathlib.Algebra.Order.Ring.Int

/-! The return codes of pitcher/pitcher_def.h. -/
namespace ImxTest.Pitcher

/-- The codes the functions return, without the sign. -/
inductive Ret where
  | OK | E_NULL_POINTER | E_INVAL | E_MMAP | E_OPEN | E_NO_MEMORY | E_EMPTY | E_FULL | E_NOSYS
  | E_NOT_READY | E_NOT_MATCH | E_NOT_FOUND | E_NOT_SUPPORT
deriving DecidableEq, Repr

end ImxTest.Pitcher
