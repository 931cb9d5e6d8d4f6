import Aburi.Backend.Mir

/-!
# The x86 instruction table

Opcodes with their operand formats.  Mnemonics and encodings are not needed here.
-/

namespace Aburi.Backend.X86

inductive InstFormat where
  | rr
  | ri
  | movAbs
  | r1
  | load
  | store
  | fpuMem
  | memRmw
  | ripR
  | symImm
  | shiftCl
  | jmp
  | jcc
  | jmpReg
  | callSym
  | callReg
  | setcc
  | cmov
  | divR
  | noOps
  | ret
  | asmText
  deriving DecidableEq

inductive X86Op where
  | movRR32 | movRR64 | movRI32 | movRI64 | movAbs64 | movapsRR | movdGX | movqGX | movdXG
  | movqXG | load8Z | load16Z | load32 | load64 | loadSS | loadSD | loadX128 | store8 | store16
  | store32 | store64 | storeSS | storeSD | storeX128 | leaMem | leaRip | loadRip64
  | movAbsSym32 | add32 | add64 | sub32 | sub64 | adc32 | sbb32 | imul32 | imul64 | and32
  | and64 | or32 | or64 | xor32 | xor64 | addI32 | addI64 | subI32 | subI64 | andI32 | andI64
  | xorI32 | xorI64 | neg32 | neg64 | not32 | not64 | shrI64 | shlI64 | sarI32 | shlCl32
  | shlCl64 | shrCl32 | shrCl64 | sarCl32 | sarCl64 | cdq | cqo | idiv32 | idiv64 | udiv32
  | udiv64 | movzbl | movzwl | movsbl | movswl | movsbq | movswq | movslq | addSS | addSD
  | subSS | subSD | mulSS | mulSD | divSS | divSD | xorpsRR | cvtSS2SD | cvtSD2SS | cvtsi2ss32
  | cvtsi2ss64 | cvtsi2sd32 | cvtsi2sd64 | cvttss2si32 | cvttss2si64 | cvttsd2si32 | cvttsd2si64
  | cmp32 | cmp64 | cmpI32 | cmpI64 | test32 | test64 | ucomiss | ucomisd | setccR | cmov32
  | cmov64 | jmpLbl | jccLbl | jmpR | callS | callR | retQ | ud2 | pushR | popR | bswap32
  | bswap64 | rol16I | bsr32 | bsr64 | bsf32 | bsf64 | popcnt32 | popcnt64 | mfence | xchg8
  | xchg16 | xchg32 | xchg64 | lockXadd8 | lockXadd16 | lockXadd32 | lockXadd64 | lockCmpxchg8
  | lockCmpxchg16 | lockCmpxchg32 | lockCmpxchg64 | fld80 | fldM64 | fldM32 | fstp80 | fstpM64
  | fstpM32 | fildM32 | fildM64 | fisttpM64 | faddM64 | faddp | fsubp | fmulp | fdivp | fchs
  | fucomip | fpopSt0 | asmBlock | frameAddr | epilogueRet | ehLabel
  deriving DecidableEq

def format : X86Op → InstFormat
  | .movRR32 | .movRR64 | .movapsRR | .movdGX | .movqGX | .movdXG | .movqXG | .add32 | .add64
  | .sub32 | .sub64 | .adc32 | .sbb32 | .imul32 | .imul64 | .and32 | .and64 | .or32 | .or64
  | .xor32 | .xor64 | .movzbl | .movzwl | .movsbl | .movswl | .movsbq | .movswq | .movslq
  | .addSS | .addSD | .subSS | .subSD | .mulSS | .mulSD | .divSS | .divSD | .xorpsRR
  | .cvtSS2SD | .cvtSD2SS | .cvtsi2ss32 | .cvtsi2ss64 | .cvtsi2sd32 | .cvtsi2sd64
  | .cvttss2si32 | .cvttss2si64 | .cvttsd2si32 | .cvttsd2si64 | .cmp32 | .cmp64 | .test32
  | .test64 | .ucomiss | .ucomisd | .bsr32 | .bsr64 | .bsf32 | .bsf64 | .popcnt32 | .popcnt64
  | .frameAddr => .rr
  | .movRI32 | .movRI64 | .addI32 | .addI64 | .subI32 | .subI64 | .andI32 | .andI64 | .xorI32
  | .xorI64 | .shrI64 | .shlI64 | .sarI32 | .cmpI32 | .cmpI64 | .rol16I => .ri
  | .movAbs64 => .movAbs
  | .load8Z | .load16Z | .load32 | .load64 | .loadSS | .loadSD | .loadX128 | .leaMem => .load
  | .store8 | .store16 | .store32 | .store64 | .storeSS | .storeSD | .storeX128 => .store
  | .leaRip | .loadRip64 => .ripR
  | .movAbsSym32 => .symImm
  | .neg32 | .neg64 | .not32 | .not64 | .pushR | .popR | .bswap32 | .bswap64 => .r1
  | .shlCl32 | .shlCl64 | .shrCl32 | .shrCl64 | .sarCl32 | .sarCl64 => .shiftCl
  | .cdq | .cqo | .retQ | .ud2 | .mfence | .faddp | .fsubp | .fmulp | .fdivp | .fchs
  | .fucomip | .fpopSt0 => .noOps
  | .idiv32 | .idiv64 | .udiv32 | .udiv64 => .divR
  | .setccR => .setcc
  | .cmov32 | .cmov64 => .cmov
  | .jmpLbl => .jmp
  | .jccLbl => .jcc
  | .jmpR => .jmpReg
  | .callS => .callSym
  | .callR => .callReg
  | .xchg8 | .xchg16 | .xchg32 | .xchg64 | .lockXadd8 | .lockXadd16 | .lockXadd32
  | .lockXadd64 | .lockCmpxchg8 | .lockCmpxchg16 | .lockCmpxchg32 | .lockCmpxchg64 => .memRmw
  | .fld80 | .fldM64 | .fldM32 | .fstp80 | .fstpM64 | .fstpM32 | .fildM32 | .fildM64
  | .fisttpM64 | .faddM64 => .fpuMem
  | .asmBlock => .asmText
  | .epilogueRet | .ehLabel => .ret

end Aburi.Backend.X86
