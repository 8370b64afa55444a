/-!
# Options for generated code
-/

namespace TestSynth

/-- What the generated code is made of. -/
structure Options where
  /-- The names of test functions begin with this. -/
  testMark : String := "test_"
  /-- The function that allocates. -/
  allocator : String := "mymalloc"
  /-- The function that releases all that was allocated. -/
  releaser : String := "myfree"
  /-- The names of loop counters begin with this. -/
  counterMark : String := "cam_loop_"
  /-- The number of spaces for each level of nesting. -/
  indent : Nat := 2
  deriving DecidableEq, Repr

end TestSynth
