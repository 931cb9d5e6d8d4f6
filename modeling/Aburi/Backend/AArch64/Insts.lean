import Aburi.Backend.Mir

/-!
# The AArch64 instruction table

Opcodes with their operand formats and the flags that register allocation and
frame lowering ask for.  Mnemonics and encodings are not needed here.
-/

namespace Aburi.Backend.AArch64

inductive InstFormat where
  | rr
  | rrr
  | rrrr
  | rIshift
  | rri
  | mem
  | pairPre
  | pairPost
  | pairOff
  | adrp
  | addSym
  | branch
  | condBranch
  | callSym
  | callReg
  | cmpRR
  | cmpRI
  | cset
  | csel
  | ret
  | brk
  | rrMem
  | lseRmw
  | vecCnt
  | vec16Mov
  | vecAddv
  | barrier
  | asmText
  deriving DecidableEq

inductive A64Op where
  | movzW | movzX | movnW | movnX | movkW | movkX | movW | movX | fmovSW | fmovDX | fmovWS
  | fmovXD | fmovS | fmovD | addW | addX | subW | subX | mulW | mulX | sdivW | sdivX | udivW
  | udivX | msubW | msubX | andW | andX | orrW | orrX | eorW | eorX | lslW | lslX | lsrW
  | lsrX | asrW | asrX | addWri | addXri | subWri | subXri | andWri | faddS | faddD | fsubS
  | fsubD | fmulS | fmulD | fdivS | fdivD | fnegS | fnegD | cmpW | cmpX | cmpWri | cmpXri
  | fcmpS | fcmpD | csetW | csetX | cselW | cselX | fcselS | fcselD | sxtbW | sxthW | sxtbX
  | sxthX | sxtw | uxtbW | uxthW | fcvtSD | fcvtDS | scvtfSW | scvtfSX | scvtfDW | scvtfDX
  | ucvtfSW | ucvtfSX | ucvtfDW | ucvtfDX | fcvtzsWS | fcvtzsWD | fcvtzsXS | fcvtzsXD
  | fcvtzuWS | fcvtzuWD | fcvtzuXS | fcvtzuXD | ldrX | ldrW | ldrhW | ldrbW | ldrsbW | ldrshW
  | ldrsw | ldrS | ldrD | ldrQ | strX | strW | strhW | strbW | strS | strD | strQ | stpXpre
  | ldpXpost | stpXoff | ldpXoff | stpDoff | ldpDoff | adrp | addXsym | b | bcc | bl | blr
  | ret | brk | brReg | revW | revX | rev16W | clzW | clzX | rbitW | rbitX | negW | negX
  | mvnW | mvnX | cntV8b | movV16b | addvB8 | ldarbW | ldarhW | ldarW | ldarX | stlrbW
  | stlrhW | stlrW | stlrX | ldaddalbW | ldaddalhW | ldaddalW | ldaddalX | ldclralbW
  | ldclralhW | ldclralW | ldclralX | ldsetalbW | ldsetalhW | ldsetalW | ldsetalX | ldeoralbW
  | ldeoralhW | ldeoralW | ldeoralX | swpalbW | swpalhW | swpalW | swpalX | casalbW | casalhW
  | casalW | casalX | dmbIsh | asmBlock | frameAddr | epilogueRet | epilogueTailBr | ehLabel
  deriving DecidableEq

def format : A64Op → InstFormat
  | .movW | .movX | .fmovSW | .fmovDX | .fmovWS | .fmovXD | .fmovS | .fmovD | .fnegS
  | .fnegD | .sxtbW | .sxthW | .sxtbX | .sxthX | .sxtw | .uxtbW | .uxthW | .fcvtSD
  | .fcvtDS | .scvtfSW | .scvtfSX | .scvtfDW | .scvtfDX | .ucvtfSW | .ucvtfSX | .ucvtfDW
  | .ucvtfDX | .fcvtzsWS | .fcvtzsWD | .fcvtzsXS | .fcvtzsXD | .fcvtzuWS | .fcvtzuWD
  | .fcvtzuXS | .fcvtzuXD | .revW | .revX | .rev16W | .clzW | .clzX | .rbitW | .rbitX
  | .negW | .negX | .mvnW | .mvnX | .frameAddr => .rr
  | .addW | .addX | .subW | .subX | .mulW | .mulX | .sdivW | .sdivX | .udivW | .udivX
  | .andW | .andX | .orrW | .orrX | .eorW | .eorX | .lslW | .lslX | .lsrW | .lsrX | .asrW
  | .asrX | .faddS | .faddD | .fsubS | .fsubD | .fmulS | .fmulD | .fdivS | .fdivD => .rrr
  | .msubW | .msubX => .rrrr
  | .movzW | .movzX | .movnW | .movnX | .movkW | .movkX => .rIshift
  | .addWri | .addXri | .subWri | .subXri | .andWri => .rri
  | .ldrX | .ldrW | .ldrhW | .ldrbW | .ldrsbW | .ldrshW | .ldrsw | .ldrS | .ldrD | .ldrQ
  | .strX | .strW | .strhW | .strbW | .strS | .strD | .strQ | .ldarbW | .ldarhW | .ldarW
  | .ldarX | .stlrbW | .stlrhW | .stlrW | .stlrX => .mem
  | .stpXpre => .pairPre
  | .ldpXpost => .pairPost
  | .stpXoff | .ldpXoff | .stpDoff | .ldpDoff => .pairOff
  | .adrp => .adrp
  | .addXsym => .addSym
  | .b => .branch
  | .bcc => .condBranch
  | .bl => .callSym
  | .blr | .brReg => .callReg
  | .cmpW | .cmpX | .fcmpS | .fcmpD => .cmpRR
  | .cmpWri | .cmpXri => .cmpRI
  | .csetW | .csetX => .cset
  | .cselW | .cselX | .fcselS | .fcselD => .csel
  | .ret | .epilogueRet | .epilogueTailBr | .ehLabel => .ret
  | .brk => .brk
  | .casalbW | .casalhW | .casalW | .casalX => .rrMem
  | .ldaddalbW | .ldaddalhW | .ldaddalW | .ldaddalX | .ldclralbW | .ldclralhW | .ldclralW
  | .ldclralX | .ldsetalbW | .ldsetalhW | .ldsetalW | .ldsetalX | .ldeoralbW | .ldeoralhW
  | .ldeoralW | .ldeoralX | .swpalbW | .swpalhW | .swpalW | .swpalX => .lseRmw
  | .cntV8b => .vecCnt
  | .movV16b => .vec16Mov
  | .addvB8 => .vecAddv
  | .dmbIsh => .barrier
  | .asmBlock => .asmText

/-- The `A64_DEF0`, `A64_USE0` and `A64_CALL` flags of the instruction
table. -/
def regallocInfo : A64Op → RegAllocOpcodeInfo
  | .movkW | .movkX | .casalbW | .casalhW | .casalW | .casalX =>
    { definesOperand0 := true, readsOperand0 := true }
  | .bl | .blr | .asmBlock => { isCall := true }
  | .cmpW | .cmpX | .cmpWri | .cmpXri | .fcmpS | .fcmpD | .strX | .strW | .strhW | .strbW
  | .strS | .strD | .strQ | .stpXpre | .ldpXpost | .stpXoff | .ldpXoff | .stpDoff
  | .ldpDoff | .b | .bcc | .ret | .brk | .brReg | .stlrbW | .stlrhW | .stlrW | .stlrX
  | .dmbIsh | .epilogueRet | .epilogueTailBr | .ehLabel => {}
  | _ => { definesOperand0 := true }

end Aburi.Backend.AArch64
