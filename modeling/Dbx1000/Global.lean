import Mathlib.Algebra.Group.Nat.Defs

/-!
# Shared enumerations and constants (`common/global.h`, `config.h`)
-/

namespace Dbx1000

inductive RC
  | rcok | commit | abort | wait | error | finish | timeOut
deriving DecidableEq, Repr

/-- `access_t`: what a transaction does with a row. -/
inductive AccessT
  | rd | wr | xp | scan
deriving DecidableEq, Repr

/-- `TsType`: the requests of `Row_mvcc::access`. -/
inductive TsType
  | rReq | wReq | pReq | xpReq
deriving DecidableEq, Repr

/-- `UINT64_MAX` -/
def uint64Max : Nat := 2 ^ 64 - 1

end Dbx1000
