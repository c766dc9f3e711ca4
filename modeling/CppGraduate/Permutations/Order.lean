import CppGraduate.Lib.SizeFirst
import CppGraduate.Permutations.NormalForm

/-!
# The order of loops and of permutations

A loop is less than another if it is shorter, or of the same size and less at
the first difference; permutations compare their loops in the same way. Both
are strict total orders, for any loops and permutations, canonical or not.
-/

namespace Permutations

variable {D : Dom}

/-- The elements are compared as values of the base type. -/
def lessElem (x y : Idom D) : Bool := decide (x < y)

/-- `PermLoop::less(rhs)` -/
def PermLoop.less (l rhs : PermLoop D) : Bool := SizeFirst.less lessElem l.loop rhs.loop

/-- `Permutation::less(rhs)` -/
def Permutation.less (p rhs : Permutation D) : Bool :=
  SizeFirst.less PermLoop.less p.loops rhs.loops

/-- The elements are in strict total order. -/
instance isStrictTotalOrder_lessElem :
    IsStrictTotalOrder (Idom D) (SizeFirst.Rel (lessElem (D := D))) := by
  have hrel : SizeFirst.Rel (lessElem (D := D)) = (· < ·) := by
    ext x y
    exact decide_eq_true_iff
  rw [hrel]
  infer_instance

/-- So are the loops. -/
instance isStrictTotalOrder_loops :
    IsStrictTotalOrder (PermLoop D) (SizeFirst.Rel PermLoop.less) :=
  SizeFirst.isStrictTotalOrder_comap (SizeFirst.less lessElem) fun _ _ h => PermLoop.ext h

/-- And the permutations. -/
instance isStrictTotalOrder_permutations :
    IsStrictTotalOrder (Permutation D) (SizeFirst.Rel Permutation.less) :=
  SizeFirst.isStrictTotalOrder_comap (SizeFirst.less PermLoop.less) fun p q h => by
    cases p
    cases q
    exact congrArg Permutation.mk h

/-- **Loops and permutations are in strict total order**, consistent with
their equality. -/
theorem strictTotal_less (D : Dom) :
    SizeFirst.StrictTotal (PermLoop.less (D := D)) PermLoop.equals
      ∧ SizeFirst.StrictTotal (Permutation.less (D := D)) Permutation.equals :=
  ⟨.of_rel fun _ _ => PermLoop.equals_iff, .of_rel fun _ _ => Permutation.equals_iff⟩

end Permutations
