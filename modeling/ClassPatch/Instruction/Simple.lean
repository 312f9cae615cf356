/-!
# Instructions without operands

These are one byte long: the opcode. They are listed in the order of their opcodes.

* `Simple.opcode`, `Simple.ofOpcode?` — the byte of an instruction, and back
* `Simple.name`, `Simple.ofName?` — the name of an instruction in messages, and back
-/

namespace ClassPatch

/-- An instruction without operands. -/
inductive Simple where
  -- Constants.
  | nop | aconstNull | iconstM1 | iconst0 | iconst1 | iconst2 | iconst3 | iconst4 | iconst5
  | lconst0 | lconst1 | fconst0 | fconst1 | fconst2 | dconst0 | dconst1
  -- Loads from arrays.
  | iaload | laload | faload | daload | aaload | baload | caload | saload
  -- Stores to arrays.
  | iastore | lastore | fastore | dastore | aastore | bastore | castore | sastore
  -- The operand stack.
  | pop | pop2 | dup | dupX1 | dupX2 | dup2 | dup2X1 | dup2X2 | swap
  -- Arithmetic.
  | iadd | ladd | fadd | dadd | isub | lsub | fsub | dsub | imul | lmul | fmul | dmul | idiv
  | ldiv | fdiv | ddiv | irem | lrem | frem | drem | ineg | lneg | fneg | dneg
  -- Shifts and bitwise operations.
  | ishl | lshl | ishr | lshr | iushr | lushr | iand | land | ior | lor | ixor | lxor
  -- Conversions.
  | i2l | i2f | i2d | l2i | l2f | l2d | f2i | f2l | f2d | d2i | d2l | d2f | i2b | i2c | i2s
  -- Comparisons.
  | lcmp | fcmpL | fcmpG | dcmpL | dcmpG
  -- Returns.
  | ireturn | lreturn | freturn | dreturn | areturn | vreturn
  -- Arrays, exceptions and monitors.
  | arrayLength | athrow | monitorEnter | monitorExit
  deriving DecidableEq

namespace Simple

def opcode : Simple → UInt8
  | nop => 0x00
  | aconstNull => 0x01
  | iconstM1 => 0x02
  | iconst0 => 0x03
  | iconst1 => 0x04
  | iconst2 => 0x05
  | iconst3 => 0x06
  | iconst4 => 0x07
  | iconst5 => 0x08
  | lconst0 => 0x09
  | lconst1 => 0x0a
  | fconst0 => 0x0b
  | fconst1 => 0x0c
  | fconst2 => 0x0d
  | dconst0 => 0x0e
  | dconst1 => 0x0f
  | iaload => 0x2e
  | laload => 0x2f
  | faload => 0x30
  | daload => 0x31
  | aaload => 0x32
  | baload => 0x33
  | caload => 0x34
  | saload => 0x35
  | iastore => 0x4f
  | lastore => 0x50
  | fastore => 0x51
  | dastore => 0x52
  | aastore => 0x53
  | bastore => 0x54
  | castore => 0x55
  | sastore => 0x56
  | pop => 0x57
  | pop2 => 0x58
  | dup => 0x59
  | dupX1 => 0x5a
  | dupX2 => 0x5b
  | dup2 => 0x5c
  | dup2X1 => 0x5d
  | dup2X2 => 0x5e
  | swap => 0x5f
  | iadd => 0x60
  | ladd => 0x61
  | fadd => 0x62
  | dadd => 0x63
  | isub => 0x64
  | lsub => 0x65
  | fsub => 0x66
  | dsub => 0x67
  | imul => 0x68
  | lmul => 0x69
  | fmul => 0x6a
  | dmul => 0x6b
  | idiv => 0x6c
  | ldiv => 0x6d
  | fdiv => 0x6e
  | ddiv => 0x6f
  | irem => 0x70
  | lrem => 0x71
  | frem => 0x72
  | drem => 0x73
  | ineg => 0x74
  | lneg => 0x75
  | fneg => 0x76
  | dneg => 0x77
  | ishl => 0x78
  | lshl => 0x79
  | ishr => 0x7a
  | lshr => 0x7b
  | iushr => 0x7c
  | lushr => 0x7d
  | iand => 0x7e
  | land => 0x7f
  | ior => 0x80
  | lor => 0x81
  | ixor => 0x82
  | lxor => 0x83
  | i2l => 0x85
  | i2f => 0x86
  | i2d => 0x87
  | l2i => 0x88
  | l2f => 0x89
  | l2d => 0x8a
  | f2i => 0x8b
  | f2l => 0x8c
  | f2d => 0x8d
  | d2i => 0x8e
  | d2l => 0x8f
  | d2f => 0x90
  | i2b => 0x91
  | i2c => 0x92
  | i2s => 0x93
  | lcmp => 0x94
  | fcmpL => 0x95
  | fcmpG => 0x96
  | dcmpL => 0x97
  | dcmpG => 0x98
  | ireturn => 0xac
  | lreturn => 0xad
  | freturn => 0xae
  | dreturn => 0xaf
  | areturn => 0xb0
  | vreturn => 0xb1
  | arrayLength => 0xbe
  | athrow => 0xbf
  | monitorEnter => 0xc2
  | monitorExit => 0xc3

def all : List Simple := [
  nop, aconstNull, iconstM1, iconst0, iconst1, iconst2, iconst3, iconst4, iconst5, lconst0,
  lconst1, fconst0, fconst1, fconst2, dconst0, dconst1, iaload, laload, faload, daload, aaload,
  baload, caload, saload, iastore, lastore, fastore, dastore, aastore, bastore, castore, sastore,
  pop, pop2, dup, dupX1, dupX2, dup2, dup2X1, dup2X2, swap, iadd, ladd, fadd, dadd, isub, lsub,
  fsub, dsub, imul, lmul, fmul, dmul, idiv, ldiv, fdiv, ddiv, irem, lrem, frem, drem, ineg, lneg,
  fneg, dneg, ishl, lshl, ishr, lshr, iushr, lushr, iand, land, ior, lor, ixor, lxor, i2l, i2f,
  i2d, l2i, l2f, l2d, f2i, f2l, f2d, d2i, d2l, d2f, i2b, i2c, i2s, lcmp, fcmpL, fcmpG, dcmpL,
  dcmpG, ireturn, lreturn, freturn, dreturn, areturn, vreturn, arrayLength, athrow, monitorEnter,
  monitorExit]

def ofOpcode? (b : UInt8) : Option Simple := all.find? fun s => s.opcode = b

def name : Simple → String
  | nop => "Nop"
  | aconstNull => "AConstNull"
  | iconstM1 => "IConstM1"
  | iconst0 => "IConst0"
  | iconst1 => "IConst1"
  | iconst2 => "IConst2"
  | iconst3 => "IConst3"
  | iconst4 => "IConst4"
  | iconst5 => "IConst5"
  | lconst0 => "LConst0"
  | lconst1 => "LConst1"
  | fconst0 => "FConst0"
  | fconst1 => "FConst1"
  | fconst2 => "FConst2"
  | dconst0 => "DConst0"
  | dconst1 => "DConst1"
  | iaload => "IALoad"
  | laload => "LALoad"
  | faload => "FALoad"
  | daload => "DALoad"
  | aaload => "AALoad"
  | baload => "BALoad"
  | caload => "CALoad"
  | saload => "SALoad"
  | iastore => "IAStore"
  | lastore => "LAStore"
  | fastore => "FAStore"
  | dastore => "DAStore"
  | aastore => "AAStore"
  | bastore => "BAStore"
  | castore => "CAStore"
  | sastore => "SAStore"
  | pop => "Pop"
  | pop2 => "Pop2"
  | dup => "Dup"
  | dupX1 => "DupX1"
  | dupX2 => "DupX2"
  | dup2 => "Dup2"
  | dup2X1 => "Dup2X1"
  | dup2X2 => "Dup2X2"
  | swap => "Swap"
  | iadd => "IAdd"
  | ladd => "LAdd"
  | fadd => "FAdd"
  | dadd => "DAdd"
  | isub => "ISub"
  | lsub => "LSub"
  | fsub => "FSub"
  | dsub => "DSub"
  | imul => "IMul"
  | lmul => "LMul"
  | fmul => "FMul"
  | dmul => "DMul"
  | idiv => "IDiv"
  | ldiv => "LDiv"
  | fdiv => "FDiv"
  | ddiv => "DDiv"
  | irem => "IRem"
  | lrem => "LRem"
  | frem => "FRem"
  | drem => "DRem"
  | ineg => "INeg"
  | lneg => "LNeg"
  | fneg => "FNeg"
  | dneg => "DNeg"
  | ishl => "IShl"
  | lshl => "LShl"
  | ishr => "IShr"
  | lshr => "LShr"
  | iushr => "IUShr"
  | lushr => "LUShr"
  | iand => "IAnd"
  | land => "LAnd"
  | ior => "IOr"
  | lor => "LOr"
  | ixor => "IXor"
  | lxor => "LXor"
  | i2l => "I2L"
  | i2f => "I2F"
  | i2d => "I2D"
  | l2i => "L2I"
  | l2f => "L2F"
  | l2d => "L2D"
  | f2i => "F2I"
  | f2l => "F2L"
  | f2d => "F2D"
  | d2i => "D2I"
  | d2l => "D2L"
  | d2f => "D2F"
  | i2b => "I2B"
  | i2c => "I2C"
  | i2s => "I2S"
  | lcmp => "LCmp"
  | fcmpL => "FCmpL"
  | fcmpG => "FCmpG"
  | dcmpL => "DCmpL"
  | dcmpG => "DCmpG"
  | ireturn => "IReturn"
  | lreturn => "LReturn"
  | freturn => "FReturn"
  | dreturn => "DReturn"
  | areturn => "AReturn"
  | vreturn => "Return"
  | arrayLength => "ArrayLength"
  | athrow => "AThrow"
  | monitorEnter => "MonitorEnter"
  | monitorExit => "MonitorExit"

def ofName? (n : String) : Option Simple := all.find? fun s => s.name = n

theorem mem_all (s : Simple) : s ∈ all := by
  cases s <;> decide

theorem ofOpcode?_opcode (s : Simple) : ofOpcode? s.opcode = some s :=
  have h : ∀ s ∈ all, ofOpcode? s.opcode = some s := by decide +kernel
  h s (mem_all s)

theorem opcode_of_ofOpcode? {b : UInt8} {s : Simple} (h : ofOpcode? b = some s) :
    s.opcode = b := by
  have := List.find?_some h
  simpa using this

end Simple

end ClassPatch
