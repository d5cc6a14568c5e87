import TapeToolchain.Assembly.Fragments

/-!
GNU assembly for ia32. The tape lies on the stack and register `eax` holds the cursor, which is kept
in `esi` during system calls.
-/

namespace TapeToolchain

def ia32Fragments : Fragments where
  programStart :=
    "\n.globl _start\n" ++
    "_start:\n" ++
    "    start:\n" ++
    "    # for(int i = 0; i < 30000; ++i) buff[i] = 0\n" ++
    "    subl\t$30000,%esp\n" ++
    "    movl        $0,%eax\n" ++
    "zero_buff_start:\n" ++
    "    cmpl        $30000,%eax\n" ++
    "    je          zero_buff_end\n" ++
    "    movb        $0,0(%esp,%eax,1)\n" ++
    "    incl        %eax\n" ++
    "    jmp         zero_buff_start\n" ++
    "zero_buff_end:\n" ++
    "    # initialise data pointer\n" ++
    "    movl\t$0,%eax"
  programEnd :=
    "\n    addl\t$30000,%esp\n" ++
    "    movl\t$1,%eax\n" ++
    "    movl\t$0,%ebx\n" ++
    "    int\t\t$0x80\n"
  readChar :=
    "\n    movl\t%eax,%esi # save eax\n" ++
    "    # read(stdin, &(buffer[eax]), 1)\n" ++
    "    movl\t%eax,%ecx\n" ++
    "    addl\t%esp,%ecx\n" ++
    "    movl\t$3,%eax\n" ++
    "    movl\t$0,%ebx\n" ++
    "    movl\t$1,%edx\n" ++
    "    int\t\t$0x80\n" ++
    "    movl\t%esi,%eax # restore eax"
  writeChar :=
    "\n    movl\t%eax,%esi # save eax\n" ++
    "    # write(stdout, &(buffer[eax]), 1)\n" ++
    "    movl\t%eax,%ecx\n" ++
    "    addl\t%esp,%ecx\n" ++
    "    movl\t$4,%eax\n" ++
    "    movl\t$1,%ebx\n" ++
    "    movl\t$1,%edx\n" ++
    "    int\t\t$0x80\n" ++
    "    movl\t%esi,%eax # restore eax"
  left := "\n    decl\t%eax"
  right := "\n    incl        %eax"
  increment := "\n    incb\t0(%esp, %eax, 1)"
  decrement := "\n    decb\t0(%esp, %eax, 1)"
  loopBegin :=
    ⟨"\n    movb\t0(%esp, %eax, 1),%bl\n" ++
    "    testb\t%bl,%bl\n" ++
    "    je\t\tend_", "\nbegin_", ":"⟩
  loopEnd :=
    ⟨"\n    movb\t0(%esp, %eax, 1),%bl\n" ++
    "    testb\t%bl,%bl\n" ++
    "    jne\t\tbegin_", "\nend_", ":"⟩
  leftBy := ⟨"\n    subl        $0x", ", %eax"⟩
  rightBy := ⟨"\n    addl        $0x", ", %eax"⟩
  incrementBy := ⟨"\n    addb\t$0x", ", 0(%esp, %eax, 1)"⟩
  decrementBy := ⟨"\n    subb\t$0x", ", 0(%esp, %eax, 1)"⟩

end TapeToolchain
