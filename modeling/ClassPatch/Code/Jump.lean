import ClassPatch.Code.Opcode

/-!
# Jumps

A jump is taken under a condition, or always, or as the call of a subroutine. Every condition has
an opposite, which is taken exactly when the condition is not.
-/

namespace ClassPatch

/-- What a conditional jump tests. -/
inductive Condition
  | ifEq
  | ifNe
  | ifLt
  | ifGe
  | ifGt
  | ifLe
  | ifIcmpEq
  | ifIcmpNe
  | ifIcmpLt
  | ifIcmpGe
  | ifIcmpGt
  | ifIcmpLe
  | ifAcmpEq
  | ifAcmpNe
  | ifNull
  | ifNonNull
  deriving DecidableEq

namespace Condition

/-- Every condition, in the order of their opcodes. -/
def all : List Condition :=
  [ifEq, ifNe, ifLt, ifGe, ifGt, ifLe, ifIcmpEq, ifIcmpNe, ifIcmpLt, ifIcmpGe, ifIcmpGt, ifIcmpLe,
    ifAcmpEq, ifAcmpNe, ifNull, ifNonNull]

def opcode : Condition → UInt8
  | ifEq => 0x99
  | ifNe => 0x9A
  | ifLt => 0x9B
  | ifGe => 0x9C
  | ifGt => 0x9D
  | ifLe => 0x9E
  | ifIcmpEq => 0x9F
  | ifIcmpNe => 0xA0
  | ifIcmpLt => 0xA1
  | ifIcmpGe => 0xA2
  | ifIcmpGt => 0xA3
  | ifIcmpLe => 0xA4
  | ifAcmpEq => 0xA5
  | ifAcmpNe => 0xA6
  | ifNull => 0xC6
  | ifNonNull => 0xC7

def mnemonic : Condition → String
  | ifEq => "ifeq"
  | ifNe => "ifne"
  | ifLt => "iflt"
  | ifGe => "ifge"
  | ifGt => "ifgt"
  | ifLe => "ifle"
  | ifIcmpEq => "if_icmpeq"
  | ifIcmpNe => "if_icmpne"
  | ifIcmpLt => "if_icmplt"
  | ifIcmpGe => "if_icmpge"
  | ifIcmpGt => "if_icmpgt"
  | ifIcmpLe => "if_icmple"
  | ifAcmpEq => "if_acmpeq"
  | ifAcmpNe => "if_acmpne"
  | ifNull => "ifnull"
  | ifNonNull => "ifnonnull"

/-- The condition that holds exactly when this one does not. -/
def opposite : Condition → Condition
  | ifEq => ifNe
  | ifNe => ifEq
  | ifLt => ifGe
  | ifGe => ifLt
  | ifGt => ifLe
  | ifLe => ifGt
  | ifIcmpEq => ifIcmpNe
  | ifIcmpNe => ifIcmpEq
  | ifIcmpLt => ifIcmpGe
  | ifIcmpGe => ifIcmpLt
  | ifIcmpGt => ifIcmpLe
  | ifIcmpLe => ifIcmpGt
  | ifAcmpEq => ifAcmpNe
  | ifAcmpNe => ifAcmpEq
  | ifNull => ifNonNull
  | ifNonNull => ifNull

/-- The words that the test takes from the stack. -/
def words : Condition → Nat
  | ifEq | ifNe | ifLt | ifGe | ifGt | ifLe | ifNull | ifNonNull => 1
  | _ => 2

@[simp] theorem opposite_opposite (c : Condition) : c.opposite.opposite = c := by
  cases c <;> rfl

@[simp] theorem words_opposite (c : Condition) : c.opposite.words = c.words := by
  cases c <;> rfl

end Condition

/-- The ways to jump to a label. -/
inductive Jump
  | branch (condition : Condition)
  | goto
  | jsr
  deriving DecidableEq

namespace Jump

/-- Every kind of jump. -/
def all : List Jump := Condition.all.map branch ++ [goto, jsr]

/-- The opcode with a 16-bit displacement. -/
def opcode : Jump → UInt8
  | branch condition => condition.opcode
  | goto => Opcode.goto
  | jsr => Opcode.jsr

/-- The opcode with a 32-bit displacement, for the jumps that have one. -/
def wideOpcode? : Jump → Option UInt8
  | branch _ => none
  | goto => some Opcode.gotoW
  | jsr => some Opcode.jsrW

/-- The jump with an opcode of either width. -/
def ofOpcode? (op : UInt8) : Option Jump :=
  all.find? fun jump => jump.opcode = op || jump.wideOpcode? = some op

def mnemonic : Jump → String
  | branch condition => condition.mnemonic
  | goto => "goto"
  | jsr => "jsr"

def isConditional : Jump → Bool
  | branch _ => true
  | _ => false

/-- The jump under the opposite condition. -/
def opposite? : Jump → Option Jump
  | branch condition => some (branch condition.opposite)
  | _ => none

/-- The words that the jump takes from the stack. -/
def words : Jump → Nat
  | branch condition => condition.words
  | _ => 0

end Jump
end ClassPatch
