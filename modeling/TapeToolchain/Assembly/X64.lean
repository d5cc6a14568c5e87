import TapeToolchain.Assembly.Fragments

/-!
GNU assembly for x86-64. The tape lies on the stack, register `rbx` holds the cursor, and `al` is
used to test a cell.
-/

namespace TapeToolchain

def x64Fragments : Fragments where
  programStart :=
    "\n.globl _start\n" ++
    "_start:\n" ++
    "    start:\n" ++
    "    subq\t$30000,%rsp\n" ++
    "    movq    $0,%rbx\n" ++
    "zero_buff_start:\n" ++
    "    cmpq    $30000,%rbx\n" ++
    "    je      zero_buff_end\n" ++
    "    movq    $0x0,0(%rsp,%rbx,1)\n" ++
    "    incq    %rbx\n" ++
    "    jmp     zero_buff_start\n" ++
    "zero_buff_end:\n" ++
    "    movq\t$0,%rbx"
  programEnd :=
    "\n    addq\t$30000,%rsp\n" ++
    "    movq\t$60,%rax\n" ++
    "    movq\t$0,%rdi\n" ++
    "    syscall\n"
  readChar :=
    "\n    movq\t%rbx,%rsi\n" ++
    "    addq\t%rsp,%rsi\n" ++
    "    movq\t$0,%rax\n" ++
    "    movq\t$0,%rdi\n" ++
    "    movq\t$1,%rdx\n" ++
    "    syscall"
  writeChar :=
    "\n    movq\t%rbx,%rsi\n" ++
    "    addq\t%rsp,%rsi\n" ++
    "    movq\t$1,%rax\n" ++
    "    movq\t$1,%rdi\n" ++
    "    movq\t$1,%rdx\n" ++
    "    syscall"
  left := "\n    decq\t%rbx"
  right := "\n    incq        %rbx"
  increment := "\n    incb\t0(%rsp, %rbx, 1)"
  decrement := "\n    decb\t0(%rsp, %rbx, 1)"
  loopBegin :=
    ⟨"\n    movb\t0(%rsp, %rbx, 1),%al\n" ++
    "    testb\t%al,%al\n" ++
    "    je\t\tend_", "\nbegin_", ":"⟩
  loopEnd :=
    ⟨"\n    movb\t0(%rsp, %rbx, 1),%al\n" ++
    "    testb\t%al,%al\n" ++
    "    jne\t\tbegin_", "\nend_", ":"⟩
  leftBy := ⟨"\n    subq        $0x", ", %rbx"⟩
  rightBy := ⟨"\n    addq        $0x", ", %rbx"⟩
  incrementBy := ⟨"\n    addb\t$0x", ", 0(%rsp, %rbx, 1)"⟩
  decrementBy := ⟨"\n    subb\t$0x", ", 0(%rsp, %rbx, 1)"⟩

end TapeToolchain
