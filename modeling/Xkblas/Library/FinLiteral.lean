import Mathlib.Algebra.GroupWithZero.Nat
import Mathlib.Algebra.NeZero

/-!
# Literals of small finite types

The instances that the numerals of `Fin 2` and `Fin 3` need, and those of `Fin (n + 1)` at 1 and 2.
Every run on two or three devices, threads or domains writes its members with them.
-/

namespace Xkblas.Library.FinLiteral

theorem two_ne_zero : 1 + 1 ≠ 0 :=
  Nat.succ_ne_zero 1

theorem three_ne_zero : 2 + 1 ≠ 0 :=
  Nat.succ_ne_zero 2

scoped instance (priority := 2000) neZero_one_succ : NeZero (1 + 1) :=
  ⟨two_ne_zero⟩

scoped instance (priority := 2000) neZero_two : NeZero 2 :=
  ⟨two_ne_zero⟩

scoped instance (priority := 2000) neZero_two_succ : NeZero (2 + 1) :=
  ⟨three_ne_zero⟩

scoped instance (priority := 2000) neZero_three : NeZero 3 :=
  ⟨three_ne_zero⟩

end Xkblas.Library.FinLiteral
