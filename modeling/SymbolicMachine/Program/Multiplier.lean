import SymbolicMachine.Program.Assembly

namespace SymbolicMachine
namespace Multiplier

/-!
# The multiplier

Multiplies two words in memory by shifting and adding.  Each of eight rounds
rotates one bit out of the first factor, adds the second factor to the
accumulator if that bit was set, and rotates the accumulator and then the low
word of the product to the right.  At the end the accumulator holds the high word
of the product.
-/

/-- The source of the multiplier, for the addresses of both factors and of the low
word of the product. -/
def source (factor1 factor2 low : Word) : List Assembly.Item :=
  [.instruction (.load .x 8),
   .instruction (.load .a 0),
   .instruction .clearCarry,
   .label "loop",
   .instruction (.rotateMemory factor1),
   .branchIfClear .carry "zero",
   .instruction .clearCarry,
   .instruction (.addWithCarry factor2),
   .label "zero",
   .instruction (.rotateRegister .a),
   .instruction (.rotateMemory low),
   .instruction (.decrement .x),
   .branchIfClear .zero "loop",
   .instruction .halt]

/-- The multiplier as a program. -/
def program (factor1 factor2 low : Word) : Except ProgramError Program :=
  Assembly.assemble (source factor1 factor2 low)

end Multiplier
end SymbolicMachine
