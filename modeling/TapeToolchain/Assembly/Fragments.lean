/-!
Assembly text by pieces: one piece for each instruction, the start and the end of a program, and
pieces around the numbers that a run or a loop puts in.
-/

namespace TapeToolchain

/-- The text before and after a two-digit immediate. -/
structure ImmediateFragment where
  before : String
  after : String

/-- The text around the two places of a loop's label. -/
structure LoopFragment where
  first : String
  second : String
  third : String

/-- The pieces of a target's assembly. -/
structure Fragments where
  programStart : String
  programEnd : String
  readChar : String
  writeChar : String
  left : String
  right : String
  increment : String
  decrement : String
  loopBegin : LoopFragment
  loopEnd : LoopFragment
  leftBy : ImmediateFragment
  rightBy : ImmediateFragment
  incrementBy : ImmediateFragment
  decrementBy : ImmediateFragment

end TapeToolchain
