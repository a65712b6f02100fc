/-!
# Opcodes

The bytes of the instruction set by their mnemonics. Families that differ in a value kind, a
comparison or a small operand are consecutive, so often only the first of a family is named.
-/

namespace ClassPatch.Opcode

@[match_pattern] abbrev nop : UInt8 := 0x00
@[match_pattern] abbrev aconstNull : UInt8 := 0x01
@[match_pattern] abbrev iconstM1 : UInt8 := 0x02
@[match_pattern] abbrev iconst0 : UInt8 := 0x03
@[match_pattern] abbrev iconst5 : UInt8 := 0x08
@[match_pattern] abbrev lconst0 : UInt8 := 0x09
@[match_pattern] abbrev lconst1 : UInt8 := 0x0A
@[match_pattern] abbrev fconst0 : UInt8 := 0x0B
@[match_pattern] abbrev fconst1 : UInt8 := 0x0C
@[match_pattern] abbrev fconst2 : UInt8 := 0x0D
@[match_pattern] abbrev dconst0 : UInt8 := 0x0E
@[match_pattern] abbrev dconst1 : UInt8 := 0x0F
@[match_pattern] abbrev bipush : UInt8 := 0x10
@[match_pattern] abbrev sipush : UInt8 := 0x11
@[match_pattern] abbrev ldc : UInt8 := 0x12
@[match_pattern] abbrev ldcW : UInt8 := 0x13
@[match_pattern] abbrev ldc2W : UInt8 := 0x14

@[match_pattern] abbrev iload : UInt8 := 0x15
@[match_pattern] abbrev aload : UInt8 := 0x19
@[match_pattern] abbrev iload0 : UInt8 := 0x1A
@[match_pattern] abbrev aload3 : UInt8 := 0x2D
@[match_pattern] abbrev iaload : UInt8 := 0x2E
@[match_pattern] abbrev laload : UInt8 := 0x2F
@[match_pattern] abbrev faload : UInt8 := 0x30
@[match_pattern] abbrev daload : UInt8 := 0x31
@[match_pattern] abbrev aaload : UInt8 := 0x32
@[match_pattern] abbrev baload : UInt8 := 0x33
@[match_pattern] abbrev caload : UInt8 := 0x34
@[match_pattern] abbrev saload : UInt8 := 0x35

@[match_pattern] abbrev istore : UInt8 := 0x36
@[match_pattern] abbrev astore : UInt8 := 0x3A
@[match_pattern] abbrev istore0 : UInt8 := 0x3B
@[match_pattern] abbrev astore3 : UInt8 := 0x4E
@[match_pattern] abbrev iastore : UInt8 := 0x4F
@[match_pattern] abbrev lastore : UInt8 := 0x50
@[match_pattern] abbrev fastore : UInt8 := 0x51
@[match_pattern] abbrev dastore : UInt8 := 0x52
@[match_pattern] abbrev aastore : UInt8 := 0x53
@[match_pattern] abbrev bastore : UInt8 := 0x54
@[match_pattern] abbrev castore : UInt8 := 0x55
@[match_pattern] abbrev sastore : UInt8 := 0x56

@[match_pattern] abbrev pop : UInt8 := 0x57
@[match_pattern] abbrev pop2 : UInt8 := 0x58
@[match_pattern] abbrev dup : UInt8 := 0x59
@[match_pattern] abbrev dupX1 : UInt8 := 0x5A
@[match_pattern] abbrev dupX2 : UInt8 := 0x5B
@[match_pattern] abbrev dup2 : UInt8 := 0x5C
@[match_pattern] abbrev dup2X1 : UInt8 := 0x5D
@[match_pattern] abbrev dup2X2 : UInt8 := 0x5E
@[match_pattern] abbrev swap : UInt8 := 0x5F

@[match_pattern] abbrev iadd : UInt8 := 0x60
@[match_pattern] abbrev drem : UInt8 := 0x73
@[match_pattern] abbrev ineg : UInt8 := 0x74
@[match_pattern] abbrev dneg : UInt8 := 0x77
@[match_pattern] abbrev ishl : UInt8 := 0x78
@[match_pattern] abbrev lshl : UInt8 := 0x79
@[match_pattern] abbrev ishr : UInt8 := 0x7A
@[match_pattern] abbrev lshr : UInt8 := 0x7B
@[match_pattern] abbrev iushr : UInt8 := 0x7C
@[match_pattern] abbrev lushr : UInt8 := 0x7D
@[match_pattern] abbrev iand : UInt8 := 0x7E
@[match_pattern] abbrev land : UInt8 := 0x7F
@[match_pattern] abbrev ior : UInt8 := 0x80
@[match_pattern] abbrev lor : UInt8 := 0x81
@[match_pattern] abbrev ixor : UInt8 := 0x82
@[match_pattern] abbrev lxor : UInt8 := 0x83
@[match_pattern] abbrev iinc : UInt8 := 0x84

@[match_pattern] abbrev i2l : UInt8 := 0x85
@[match_pattern] abbrev i2f : UInt8 := 0x86
@[match_pattern] abbrev i2d : UInt8 := 0x87
@[match_pattern] abbrev l2i : UInt8 := 0x88
@[match_pattern] abbrev l2f : UInt8 := 0x89
@[match_pattern] abbrev l2d : UInt8 := 0x8A
@[match_pattern] abbrev f2i : UInt8 := 0x8B
@[match_pattern] abbrev f2l : UInt8 := 0x8C
@[match_pattern] abbrev f2d : UInt8 := 0x8D
@[match_pattern] abbrev d2i : UInt8 := 0x8E
@[match_pattern] abbrev d2l : UInt8 := 0x8F
@[match_pattern] abbrev d2f : UInt8 := 0x90
@[match_pattern] abbrev i2b : UInt8 := 0x91
@[match_pattern] abbrev i2c : UInt8 := 0x92
@[match_pattern] abbrev i2s : UInt8 := 0x93

@[match_pattern] abbrev lcmp : UInt8 := 0x94
@[match_pattern] abbrev fcmpl : UInt8 := 0x95
@[match_pattern] abbrev fcmpg : UInt8 := 0x96
@[match_pattern] abbrev dcmpl : UInt8 := 0x97
@[match_pattern] abbrev dcmpg : UInt8 := 0x98

@[match_pattern] abbrev goto : UInt8 := 0xA7
@[match_pattern] abbrev jsr : UInt8 := 0xA8
@[match_pattern] abbrev ret : UInt8 := 0xA9
@[match_pattern] abbrev tableswitch : UInt8 := 0xAA
@[match_pattern] abbrev lookupswitch : UInt8 := 0xAB
@[match_pattern] abbrev ireturn : UInt8 := 0xAC
@[match_pattern] abbrev areturn : UInt8 := 0xB0
@[match_pattern] abbrev voidReturn : UInt8 := 0xB1

@[match_pattern] abbrev getstatic : UInt8 := 0xB2
@[match_pattern] abbrev putstatic : UInt8 := 0xB3
@[match_pattern] abbrev getfield : UInt8 := 0xB4
@[match_pattern] abbrev putfield : UInt8 := 0xB5
@[match_pattern] abbrev invokevirtual : UInt8 := 0xB6
@[match_pattern] abbrev invokespecial : UInt8 := 0xB7
@[match_pattern] abbrev invokestatic : UInt8 := 0xB8
@[match_pattern] abbrev invokeinterface : UInt8 := 0xB9
@[match_pattern] abbrev invokedynamic : UInt8 := 0xBA
@[match_pattern] abbrev newObject : UInt8 := 0xBB
@[match_pattern] abbrev newarray : UInt8 := 0xBC
@[match_pattern] abbrev anewarray : UInt8 := 0xBD
@[match_pattern] abbrev arraylength : UInt8 := 0xBE
@[match_pattern] abbrev athrow : UInt8 := 0xBF
@[match_pattern] abbrev checkcast : UInt8 := 0xC0
@[match_pattern] abbrev instanceof : UInt8 := 0xC1
@[match_pattern] abbrev monitorenter : UInt8 := 0xC2
@[match_pattern] abbrev monitorexit : UInt8 := 0xC3
@[match_pattern] abbrev wide : UInt8 := 0xC4
@[match_pattern] abbrev multianewarray : UInt8 := 0xC5
@[match_pattern] abbrev gotoW : UInt8 := 0xC8
@[match_pattern] abbrev jsrW : UInt8 := 0xC9

end ClassPatch.Opcode
