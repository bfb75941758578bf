/-!
# Slices

A byte string as a socket hands it out: slices of a size, of which only the last one may be smaller.
`flatten_slices` says that nothing is lost.
-/

namespace LiveIngest.Bytes

/-- Slices of `size` bytes; a size of 0 counts as 1. -/
def slices (size : Nat) (bytes : List UInt8) : List (List UInt8) :=
  match bytes with
  | [] => []
  | b :: rest => (b :: rest.take (size - 1)) :: slices size (rest.drop (size - 1))
termination_by bytes.length
decreasing_by simp only [List.length_drop, List.length_cons]; omega

@[simp] theorem flatten_slices (size : Nat) (bytes : List UInt8) :
    (slices size bytes).flatten = bytes := by
  fun_induction slices size bytes with
  | case1 => rfl
  | case2 b rest ih => simp [ih]

end LiveIngest.Bytes
