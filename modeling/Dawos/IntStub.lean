import Dawos.Stack

/-! # The interrupt routines

The routines of `boot/bios/bbp/loader/interrupts.asm` and of `kernel/cpu/interrupts.asm` are what the
gates of the interrupt descriptor table lead to.  Each is an instance of one of three macros, and
calls a C function between pushing and popping the registers.

The C functions are parameters: a function of the state at the call instruction to the state behind it.
What they may do is limited only where a result says so.

* `interrupt_loader`: the wrapper gets the registers of the interrupted program as its argument, and
  the program goes on with those that the wrapper leaves there;
* `interrupt_kernel`: the routines of the kernel keep no registers, and those of the vectors 8 and 17
  return to the error code, which they take for the instruction pointer. -/

namespace Dawos.Stub

/-! ### The processor -/

/-- The general registers, without the stack pointer. -/
inductive Reg where
  | rax | rbx | rcx | rdx | rdi | rsi | r8 | r9 | r10 | r11 | r12 | r13 | r14 | r15 | rbp
deriving DecidableEq, Repr

/-- The registers and memory.  The stack has room for what is pushed, so its pointer does not wrap. -/
structure Cpu where
  reg : Reg → ℕ
  rsp : ℕ
  rip : ℕ
  rflags : ℕ
  cs : ℕ
  ss : ℕ
  mem : Mem

/-- The operand of a push. -/
inductive Operand where
  | imm (n : ℕ)
  | reg (r : Reg)

/-- The C functions that the routines call. -/
inductive Callee where
  | isr
  | irq
deriving DecidableEq, Repr

/-- The instructions of the routines. -/
inductive Instr where
  | cli
  | sti
  | push (o : Operand)
  | pop (r : Reg)
  /-- `mov r, rsp` -/
  | movRsp (r : Reg)
  /-- `add rsp, n` -/
  | addRsp (n : ℕ)
  | call (c : Callee)
  | iretq

/-- The interrupt flag of RFLAGS, bit 9. -/
def setIF (on : Bool) (flags : ℕ) : ℕ :=
  if on then flags ||| 0x200 else flags ^^^ (flags &&& 0x200)

namespace Cpu

/-- The value of an operand. -/
def value (s : Cpu) : Operand → ℕ
  | .imm n => n
  | .reg r => s.reg r

/-- Return from an interrupt. -/
def iretq (s : Cpu) : Cpu :=
  { s with
    rip := rd s.mem s.rsp
    cs := rd s.mem (s.rsp + 8) % 2 ^ 16
    rflags := rd s.mem (s.rsp + 16)
    rsp := rd s.mem (s.rsp + 24)
    ss := rd s.mem (s.rsp + 32) % 2 ^ 16 }

/-- One instruction; `f` is what the C functions do. -/
def exec (f : Callee → Cpu → Cpu) (s : Cpu) : Instr → Cpu
  | .cli => { s with rflags := setIF false s.rflags }
  | .sti => { s with rflags := setIF true s.rflags }
  | .push o => { s with rsp := s.rsp - 8, mem := wr s.mem (s.rsp - 8) (s.value o) }
  | .pop r => { s with reg := Function.update s.reg r (rd s.mem s.rsp), rsp := s.rsp + 8 }
  | .movRsp r => { s with reg := Function.update s.reg r s.rsp }
  | .addRsp n => { s with rsp := s.rsp + n }
  | .call c => f c s
  | .iretq => s.iretq

def run (f : Callee → Cpu → Cpu) (s : Cpu) (l : List Instr) : Cpu := l.foldl (exec f) s

/-- The processor takes an interrupt through an interrupt gate: it aligns the stack, pushes what it
needs to return, and the error code if the interrupt has one. -/
def deliver (offset selector : ℕ) (err : Option ℕ) (s : Cpu) : Cpu :=
  let base := s.rsp / 16 * 16
  let words := [s.ss, s.rsp, s.rflags, s.cs, s.rip] ++ err.toList
  { s with
    rsp := base - 8 * words.length
    mem := pushWords s.mem base words
    rip := offset
    cs := selector
    rflags := setIF false s.rflags }

/-- The registers hold 64 bits, and the segment registers 16. -/
structure Ok (s : Cpu) : Prop where
  reg : ∀ r, s.reg r < 2 ^ 64
  rsp : s.rsp < 2 ^ 64
  rip : s.rip < 2 ^ 64
  rflags : s.rflags < 2 ^ 64
  cs : s.cs < 2 ^ 16
  ss : s.ss < 2 ^ 16

end Cpu

/-- The exceptions with an error code. -/
def pushesError (v : ℕ) : Bool := v ∈ [8, 10, 11, 12, 13, 14, 17]

/-! ### The routines of the loader -/

/-- Push all the registers. -/
def PUSH_ALL : List Reg :=
  [.r15, .r14, .r13, .r12, .r11, .r10, .r9, .r8, .rsi, .rdi, .rdx, .rcx, .rbx, .rax]

/-- Pop all the registers. -/
def POP_ALL : List Reg :=
  [.rax, .rbx, .rcx, .rdx, .rdi, .rsi, .r8, .r9, .r10, .r11, .r12, .r13, .r14, .r15]

/-- What the three macros have in common, behind the numbers they push. -/
def wrapped (c : Callee) : List Instr :=
  .push (.reg .rbp) :: PUSH_ALL.map (fun r => .push (.reg r)) ++
    [.movRsp .rbp, .movRsp .rdi, .call c] ++
    POP_ALL.map .pop ++ [.pop .rbp, .addRsp 16, .sti, .iretq]

/-- For interrupts that do not pass error codes. -/
def INT_NO_ERR (n : ℕ) : List Instr := [.cli, .push (.imm 0), .push (.imm n)] ++ wrapped .isr

/-- For interrupts that DO pass an error code. -/
def INT_HAS_ERR (n : ℕ) : List Instr := [.cli, .push (.imm n)] ++ wrapped .isr

/-- For an IRQ and the interrupt number it is remapped to. -/
def IRQ (n v : ℕ) : List Instr := [.cli, .push (.imm n), .push (.imm v)] ++ wrapped .irq

/-- The routine of a vector. -/
def routine (v : ℕ) : List Instr :=
  if v < 32 then
    if v ∈ [8, 10, 11, 12, 13, 14, 17] then INT_HAS_ERR v else INT_NO_ERR v
  else IRQ (v - 32) v

/-- Stack of registers passed from assembly: `isr_stack_t`, and `irq_stack_t` with the IRQ number in
the place of the error code. -/
structure IsrStack where
  rax : ℕ
  rbx : ℕ
  rcx : ℕ
  rdx : ℕ
  rdi : ℕ
  rsi : ℕ
  r8 : ℕ
  r9 : ℕ
  r10 : ℕ
  r11 : ℕ
  r12 : ℕ
  r13 : ℕ
  r14 : ℕ
  r15 : ℕ
  rbp : ℕ
  intNo : ℕ
  errCode : ℕ
  rip : ℕ
  cs : ℕ
  rflags : ℕ
  rsp : ℕ
  ss : ℕ

namespace IsrStack

/-- The structure in memory. -/
def load (m : Mem) (a : ℕ) : IsrStack where
  rax := rd m a
  rbx := rd m (a + 8)
  rcx := rd m (a + 16)
  rdx := rd m (a + 24)
  rdi := rd m (a + 32)
  rsi := rd m (a + 40)
  r8 := rd m (a + 48)
  r9 := rd m (a + 56)
  r10 := rd m (a + 64)
  r11 := rd m (a + 72)
  r12 := rd m (a + 80)
  r13 := rd m (a + 88)
  r14 := rd m (a + 96)
  r15 := rd m (a + 104)
  rbp := rd m (a + 112)
  intNo := rd m (a + 120)
  errCode := rd m (a + 128)
  rip := rd m (a + 136)
  cs := rd m (a + 144)
  rflags := rd m (a + 152)
  rsp := rd m (a + 160)
  ss := rd m (a + 168)

/-- The fields in the order of memory. -/
def words (f : IsrStack) : List ℕ :=
  [f.rax, f.rbx, f.rcx, f.rdx, f.rdi, f.rsi, f.r8, f.r9, f.r10, f.r11, f.r12, f.r13, f.r14, f.r15,
    f.rbp, f.intNo, f.errCode, f.rip, f.cs, f.rflags, f.rsp, f.ss]

/-- The field of a register. -/
def reg (f : IsrStack) : Reg → ℕ
  | .rax => f.rax
  | .rbx => f.rbx
  | .rcx => f.rcx
  | .rdx => f.rdx
  | .rdi => f.rdi
  | .rsi => f.rsi
  | .r8 => f.r8
  | .r9 => f.r9
  | .r10 => f.r10
  | .r11 => f.r11
  | .r12 => f.r12
  | .r13 => f.r13
  | .r14 => f.r14
  | .r15 => f.r15
  | .rbp => f.rbp

end IsrStack

/-- The error code or IRQ number in the structure. -/
def errCodeOf (v : ℕ) (err : Option ℕ) : ℕ := if v < 32 then err.getD 0 else v - 32

/-- The structure of an interrupted program. -/
def stackOf (v : ℕ) (err : Option ℕ) (s : Cpu) : IsrStack where
  rax := s.reg .rax
  rbx := s.reg .rbx
  rcx := s.reg .rcx
  rdx := s.reg .rdx
  rdi := s.reg .rdi
  rsi := s.reg .rsi
  r8 := s.reg .r8
  r9 := s.reg .r9
  r10 := s.reg .r10
  r11 := s.reg .r11
  r12 := s.reg .r12
  r13 := s.reg .r13
  r14 := s.reg .r14
  r15 := s.reg .r15
  rbp := s.reg .rbp
  intNo := v
  errCode := errCodeOf v err
  rip := s.rip
  cs := s.cs
  rflags := s.rflags
  rsp := s.rsp
  ss := s.ss

/-- The program goes on with the registers in the structure. -/
def resume (f : IsrStack) (m : Mem) : Cpu where
  reg := f.reg
  rsp := f.rsp
  rip := f.rip
  rflags := f.rflags
  cs := f.cs % 2 ^ 16
  ss := f.ss % 2 ^ 16
  mem := m

/-! ### The routines of the kernel -/

namespace Kernel

/-- What the three macros have in common, behind the numbers they push. -/
def called (c : Callee) : List Instr := [.call c, .sti, .addRsp 16, .iretq]

/-- For interrupts that do not pass error codes. -/
def INT_NO_ERR (n : ℕ) : List Instr := [.cli, .push (.imm 0), .push (.imm n)] ++ called .isr

/-- For interrupts that DO pass an error code. -/
def INT_HAS_ERR (n : ℕ) : List Instr := [.cli, .push (.imm n)] ++ called .isr

/-- For an IRQ and the interrupt number it is remapped to. -/
def IRQ (n v : ℕ) : List Instr := [.cli, .push (.imm n), .push (.imm v)] ++ called .irq

/-- The routine of a vector. -/
def routine (v : ℕ) : List Instr :=
  if v < 32 then
    if v ∈ [10, 11, 12, 13, 14] then INT_HAS_ERR v else INT_NO_ERR v
  else IRQ (v - 32) v

/-- Register stack passed from assembly, `int_stack_t`. -/
structure IntStack where
  intNo : ℕ
  errCode : ℕ
  rip : ℕ
  cs : ℕ
  rflags : ℕ
  rsp : ℕ
  ss : ℕ

namespace IntStack

/-- The structure in memory. -/
def load (m : Mem) (a : ℕ) : IntStack where
  intNo := rd m a
  errCode := rd m (a + 8)
  rip := rd m (a + 16)
  cs := rd m (a + 24)
  rflags := rd m (a + 32)
  rsp := rd m (a + 40)
  ss := rd m (a + 48)

/-- The fields in the order of memory. -/
def words (f : IntStack) : List ℕ := [f.intNo, f.errCode, f.rip, f.cs, f.rflags, f.rsp, f.ss]

end IntStack

end Kernel

/-! ### Pushes and pops -/

section stack

variable {f : Callee → Cpu → Cpu} {s : Cpu} {l l' : List Instr}

theorem run_append : s.run f (l ++ l') = (s.run f l).run f l' := List.foldl_append

theorem run_cons (i : Instr) : s.run f (i :: l) = (s.exec f i).run f l := rfl

theorem value_congr {s' : Cpu} (h : s'.reg = s.reg) : s'.value = s.value := by
  funext o
  cases o <;> simp [Cpu.value, h]

/-- Pushes leave the registers, so their operands can be read before. -/
theorem run_push {os : List Operand} : s.run f (os.map .push) = { s with
    rsp := s.rsp - 8 * os.length
    mem := pushWords s.mem s.rsp (os.map s.value) } := by
  induction os generalizing s with
  | nil => rfl
  | cons o os ih =>
      have hval : (s.exec f (.push o)).value = s.value := value_congr rfl
      have hsp : s.rsp - 8 - 8 * os.length = s.rsp - 8 * (os.length + 1) := by omega
      rw [List.map_cons, List.map_cons, run_cons, ih, hval, pushWords_cons, List.length_cons, ← hsp]
      rfl

/-- Pops load the words from the stack pointer on. -/
theorem run_pop {rs : List Reg} (hrs : rs.Nodup) : s.run f (rs.map .pop) = { s with
    rsp := s.rsp + 8 * rs.length
    reg := fun r => if r ∈ rs then rd s.mem (s.rsp + 8 * rs.idxOf r) else s.reg r } := by
  induction rs generalizing s with
  | nil => rfl
  | cons a rs ih =>
      obtain ⟨ha, hrs⟩ := List.nodup_cons.mp hrs
      have hreg : ∀ r, (if r ∈ rs then rd s.mem (s.rsp + 8 + 8 * rs.idxOf r)
          else Function.update s.reg a (rd s.mem s.rsp) r) =
          if r ∈ a :: rs then rd s.mem (s.rsp + 8 * (a :: rs).idxOf r) else s.reg r := by
        intro r
        by_cases hr : r = a
        · subst hr
          rw [if_neg ha, if_pos List.mem_cons_self, Function.update_self, List.idxOf_cons_self,
            Nat.mul_zero, Nat.add_zero]
        · rw [Function.update_of_ne hr, List.idxOf_cons_ne _ (Ne.symm hr)]
          have e : s.rsp + 8 * (rs.idxOf r + 1) = s.rsp + 8 + 8 * rs.idxOf r := by omega
          simp only [List.mem_cons, hr, false_or, e]
      have hsp : s.rsp + 8 + 8 * rs.length = s.rsp + 8 * (rs.length + 1) := by omega
      rw [List.map_cons, run_cons, ih hrs, List.length_cons, ← hsp]
      exact congrArg (fun g => ({ s with rsp := s.rsp + 8 + 8 * rs.length, reg := g } : Cpu))
        (funext hreg)

theorem IsrStack.load_eq {m : Mem} {a : ℕ} {g : IsrStack} (h : readWords m 22 a = g.words) :
    IsrStack.load m a = g := by
  cases g
  simpa [readWords, IsrStack.words, IsrStack.load, List.range_succ] using h

/-! ### The way back -/

/-- The registers in the order of the pops. -/
theorem pop_order : (POP_ALL ++ [Reg.rbp]).Nodup := by decide

/-- **What a routine does behind the call.** -/
theorem run_return : s.run f ((POP_ALL ++ [Reg.rbp]).map .pop ++ [.addRsp 16, .sti, .iretq]) =
    resume (.load s.mem s.rsp) s.mem := by
  have hreg : (fun r => if r ∈ POP_ALL ++ [Reg.rbp] then
      rd s.mem (s.rsp + 8 * (POP_ALL ++ [Reg.rbp]).idxOf r) else s.reg r) =
      (IsrStack.load s.mem s.rsp).reg := by
    funext r
    cases r <;> rfl
  rw [run_append, run_pop pop_order, hreg]
  rfl

/-! ### The way in -/

/-- What the processor pushes. -/
def deliverWords (err : Option ℕ) (s : Cpu) : List ℕ :=
  [s.ss, s.rsp, s.rflags, s.cs, s.rip] ++ err.toList

/-- The aligned stack pointer. -/
def alignedRsp (s : Cpu) : ℕ := s.rsp / 16 * 16

/-- The state after the processor has taken the interrupt and the routine has pushed `os`. -/
def entered (offset selector : ℕ) (err : Option ℕ) (os : List Operand) (s : Cpu) : Cpu :=
  { s with
    rsp := alignedRsp s - 8 * (deliverWords err s ++ os.map s.value).length
    mem := pushWords s.mem (alignedRsp s) (deliverWords err s ++ os.map s.value)
    rip := offset
    cs := selector
    rflags := setIF false (setIF false s.rflags) }

theorem run_entry {os : List Operand} {offset selector : ℕ} {err : Option ℕ} :
    (s.deliver offset selector err).run f (.cli :: os.map .push) =
      entered offset selector err os s := by
  obtain ⟨s₁, hs₁⟩ : ∃ s₁, s₁ = (s.deliver offset selector err).exec f .cli := ⟨_, rfl⟩
  have hval : s₁.value = s.value := value_congr (by rw [hs₁]; rfl)
  have hsp : s₁.rsp = alignedRsp s - 8 * (deliverWords err s).length := by rw [hs₁]; rfl
  have hmem : s₁.mem = pushWords s.mem (alignedRsp s) (deliverWords err s) := by rw [hs₁]; rfl
  have hend : alignedRsp s - 8 * (deliverWords err s).length - 8 * os.length =
      alignedRsp s - 8 * (deliverWords err s ++ os.map s.value).length := by
    rw [List.length_append, List.length_map]
    omega
  rw [run_cons, ← hs₁, run_push, hval, hmem, hsp, hend, ← pushWords_append, hs₁]
  rfl

/-- The words that the processor and a routine have pushed, as the routine leaves them. -/
theorem entered_words {os : List Operand} (offset selector : ℕ) {err : Option ℕ} (hs : s.Ok)
    (herr : ∀ e ∈ err, e < 2 ^ 64) (hos : ∀ o ∈ os, s.value o < 2 ^ 64)
    (hroom : 8 * (deliverWords err s ++ os.map s.value).length ≤ alignedRsp s) :
    readWords (entered offset selector err os s).mem
      (deliverWords err s ++ os.map s.value).length (entered offset selector err os s).rsp =
      (deliverWords err s ++ os.map s.value).reverse := by
  refine readWords_pushWords hroom fun v hv => ?_
  rcases List.mem_append.mp hv with hv | hv
  · rcases List.mem_append.mp hv with hv | hv
    · have hcs := hs.cs
      have hss := hs.ss
      simp only [List.mem_cons, List.not_mem_nil, or_false] at hv
      rcases hv with rfl | rfl | rfl | rfl | rfl
      · omega
      · exact hs.rsp
      · exact hs.rflags
      · omega
      · exact hs.rip
    · exact herr v (Option.mem_toList.mp hv)
  · obtain ⟨o, ho, rfl⟩ := List.mem_map.mp hv
    exact hos o ho

end stack

/-! ### An interrupt of the loader -/

section interrupt

variable {f : Callee → Cpu → Cpu} {s : Cpu} {v offset selector : ℕ} {err : Option ℕ}

/-- The processor takes interrupt `v`, and its routine runs. -/
def interrupt (f : Callee → Cpu → Cpu) (routine : ℕ → List Instr) (offset selector v : ℕ)
    (err : Option ℕ) (s : Cpu) : Cpu := (s.deliver offset selector err).run f (routine v)

/-- The C function that the routine calls. -/
def calleeOf (v : ℕ) : Callee := if v < 32 then .isr else .irq

/-- The numbers that a routine pushes. -/
def numbers (v : ℕ) : List Operand :=
  if v < 32 then
    if v ∈ [8, 10, 11, 12, 13, 14, 17] then [.imm v] else [.imm 0, .imm v]
  else [.imm (v - 32), .imm v]

/-- All that it pushes. -/
def saved (v : ℕ) : List Operand := numbers v ++ .reg .rbp :: PUSH_ALL.map .reg

theorem routine_eq : routine v = .cli :: (saved v).map .push ++
    [.movRsp .rbp, .movRsp .rdi, .call (calleeOf v)] ++
    ((POP_ALL ++ [Reg.rbp]).map .pop ++ [.addRsp 16, .sti, .iretq]) := by
  unfold routine calleeOf saved numbers
  split_ifs <;> rfl

/-- The structure is what the processor and the routine have pushed. -/
theorem stackOf_words (hv : v < 48) (herr : err.isSome = pushesError v) :
    (deliverWords err s ++ (saved v).map s.value).reverse = (stackOf v err s).words := by
  unfold saved numbers stackOf errCodeOf deliverWords pushesError at *
  cases err with
  | none =>
      have hno : ¬ v ∈ [8, 10, 11, 12, 13, 14, 17] := by simpa using herr
      rw [if_neg hno]
      split_ifs <;> rfl
  | some e =>
      have hyes : v ∈ [8, 10, 11, 12, 13, 14, 17] := by simpa using herr.symm
      have hlt : v < 32 := by
        simp only [List.mem_cons, List.not_mem_nil, or_false] at hyes
        omega
      rw [if_pos hlt, if_pos hyes, if_pos hlt]
      rfl

theorem saved_value (hs : s.Ok) (hv : v < 48) : ∀ o ∈ saved v, s.value o < 2 ^ 64 := by
  intro o ho
  rcases List.mem_append.mp ho with ho | ho
  · have hnum : o = .imm v ∨ o = .imm 0 ∨ o = .imm (v - 32) := by
      unfold numbers at ho
      split_ifs at ho <;> simp only [List.mem_cons, List.not_mem_nil, or_false] at ho <;> grind
    rcases hnum with rfl | rfl | rfl <;> simp only [Cpu.value] <;> omega
  · have hreg : ∃ r, o = .reg r := by
      rcases List.mem_cons.mp ho with rfl | ho
      · exact ⟨_, rfl⟩
      · obtain ⟨r, -, rfl⟩ := List.mem_map.mp ho
        exact ⟨r, rfl⟩
    obtain ⟨r, rfl⟩ := hreg
    exact hs.reg r

theorem resume_stackOf {m : Mem} (hs : s.Ok) : resume (stackOf v err s) m = { s with mem := m } := by
  have hreg : (stackOf v err s).reg = s.reg := by
    funext r
    cases r <;> rfl
  unfold resume
  rw [hreg]
  simp only [stackOf, Nat.mod_eq_of_lt hs.cs, Nat.mod_eq_of_lt hs.ss]

theorem stackOf_length : (stackOf v err s).words.length = 22 := rfl

/-- The state in which the C function is called. -/
def atCall (offset selector v : ℕ) (err : Option ℕ) (s : Cpu) : Cpu :=
  ((entered offset selector err (saved v) s).exec (fun _ s => s) (.movRsp .rbp)).exec
    (fun _ s => s) (.movRsp .rdi)

/-- **Every interrupt is transparent**: its C function gets the registers of the interrupted program,
the interrupt number and the error code or IRQ number, on an aligned stack; and the program goes on
with the registers that the function leaves in the structure, which are its own if the function leaves
the structure as it is. -/
theorem interrupt_loader (hs : s.Ok) (hroom : 192 ≤ s.rsp) (hv : v < 48)
    (herr : err.isSome = pushesError v) (herr' : ∀ e ∈ err, e < 2 ^ 64) :
    ∃ c : Cpu, c.reg .rdi = c.rsp ∧ c.rsp % 16 = 0 ∧
      IsrStack.load c.mem c.rsp = stackOf v err s ∧
      AgreeOff s.mem c.mem (fun x => c.rsp ≤ x ∧ x < s.rsp) ∧
      ∀ f : Callee → Cpu → Cpu, (f (calleeOf v) c).rsp = c.rsp →
        interrupt f routine offset selector v err s =
          resume (.load (f (calleeOf v) c).mem c.rsp) (f (calleeOf v) c).mem ∧
        (IsrStack.load (f (calleeOf v) c).mem c.rsp = .load c.mem c.rsp →
          interrupt f routine offset selector v err s = { s with mem := (f (calleeOf v) c).mem }) := by
  have hwords := stackOf_words (s := s) hv herr
  have hlen : (deliverWords err s ++ (saved v).map s.value).length = 22 := by
    rw [← List.length_reverse, hwords, stackOf_length]
  have hrsp : (atCall offset selector v err s).rsp = alignedRsp s - 8 * 22 := by
    rw [← hlen]
    rfl
  have hload := entered_words offset selector hs herr'
    (saved_value hs hv) (by rw [hlen, alignedRsp]; omega)
  rw [hlen, hwords] at hload
  refine ⟨atCall offset selector v err s, rfl, ?_, IsrStack.load_eq hload, ?_, fun f hf => ?_⟩
  · rw [hrsp, alignedRsp]
    omega
  · have hoff := pushWords_agreeOff (m := s.mem) (t := alignedRsp s)
      (l := deliverWords err s ++ (saved v).map s.value) (by rw [hlen, alignedRsp]; omega)
    rw [hlen, ← hrsp] at hoff
    exact hoff.mono fun x hx => ⟨hx.1, by unfold alignedRsp at hx; omega⟩
  · have hcall : (entered offset selector err (saved v) s).run f
        [.movRsp .rbp, .movRsp .rdi, .call (calleeOf v)] =
          f (calleeOf v) (atCall offset selector v err s) := rfl
    have hin : (s.deliver offset selector err).run f (.cli :: (saved v).map .push ++
        [.movRsp .rbp, .movRsp .rdi, .call (calleeOf v)]) =
          f (calleeOf v) (atCall offset selector v err s) := by
      rw [run_append, run_entry, hcall]
    have hresume : interrupt f routine offset selector v err s =
        resume (.load (f (calleeOf v) (atCall offset selector v err s)).mem
          (atCall offset selector v err s).rsp) (f (calleeOf v) (atCall offset selector v err s)).mem := by
      rw [interrupt, routine_eq, run_append, hin, run_return, hf]
    refine ⟨hresume, fun hsame => ?_⟩
    rw [hresume, hsame]
    exact (congrArg (resume · _) (IsrStack.load_eq hload)).trans (resume_stackOf hs)

/-- A program with the stack at `0x8000`. -/
def program : Cpu := ⟨fun _ => 7, 0x8000, 0x100000, 0x202, 8, 0x10, fun _ => 0⟩

theorem program_ok : program.Ok :=
  ⟨fun _ => (by decide : 7 < 2 ^ 64), by decide, by decide, by decide, by decide, by decide⟩

theorem interrupt_loader_pageFault : ∃ c : Cpu, c.reg .rdi = c.rsp ∧ c.rsp % 16 = 0 ∧
    IsrStack.load c.mem c.rsp = stackOf 14 (some 2) program ∧
    AgreeOff program.mem c.mem (fun x => c.rsp ≤ x ∧ x < program.rsp) ∧
    ∀ f : Callee → Cpu → Cpu, (f (calleeOf 14) c).rsp = c.rsp →
      interrupt f routine 0x9000 8 14 (some 2) program =
        resume (.load (f (calleeOf 14) c).mem c.rsp) (f (calleeOf 14) c).mem ∧
      (IsrStack.load (f (calleeOf 14) c).mem c.rsp = .load c.mem c.rsp →
        interrupt f routine 0x9000 8 14 (some 2) program =
          { program with mem := (f (calleeOf 14) c).mem }) :=
  interrupt_loader program_ok (by decide) (by decide) (by decide) (by simp)

end interrupt

/-! ### An interrupt of the kernel -/

namespace Kernel

section interrupt

variable {f : Callee → Cpu → Cpu} {s : Cpu} {v offset selector : ℕ} {err : Option ℕ}

/-- The numbers that a routine pushes. -/
def numbers (v : ℕ) : List Operand :=
  if v < 32 then
    if v ∈ [10, 11, 12, 13, 14] then [.imm v] else [.imm 0, .imm v]
  else [.imm (v - 32), .imm v]

theorem routine_eq : routine v = .cli :: (numbers v).map .push ++ called (calleeOf v) := by
  unfold routine numbers calleeOf
  split_ifs <;> rfl

/-- The structure of an interrupted program. -/
def stackOf (v : ℕ) (err : Option ℕ) (s : Cpu) : IntStack :=
  ⟨v, errCodeOf v err, s.rip, s.cs, s.rflags, s.rsp, s.ss⟩

/-- What the routines of the vectors 8 and 17 make of it, which do not expect the error code. -/
def shiftedOf (v e : ℕ) (s : Cpu) : IntStack := ⟨v, 0, e, s.rip, s.cs, s.rflags, s.rsp⟩

/-- The program goes on at the address in the structure, with the other registers of `k`. -/
def resume (g : IntStack) (k : Cpu) : Cpu :=
  { k with
    rip := g.rip
    cs := g.cs % 2 ^ 16
    rflags := g.rflags
    rsp := g.rsp
    ss := g.ss % 2 ^ 16 }

theorem IntStack.load_eq {m : Mem} {a : ℕ} {g : IntStack} (h : readWords m 7 a = g.words) :
    IntStack.load m a = g := by
  cases g
  simpa [readWords, IntStack.words, IntStack.load, List.range_succ] using h

/-- What a routine does from the call on. -/
theorem run_called (c : Callee) : s.run f (called c) =
    resume (.load (f c s).mem (f c s).rsp) (f c s) := rfl

/-- The vectors whose error code the routines of the kernel do not expect. -/
def Unexpected (v : ℕ) : Prop := v = 8 ∨ v = 17

instance : Decidable (Unexpected v) := inferInstanceAs (Decidable (v = 8 ∨ v = 17))

/-- The structure that the C function finds. -/
def foundOf (v : ℕ) (err : Option ℕ) (s : Cpu) : IntStack :=
  if Unexpected v then shiftedOf v (err.getD 0) s else stackOf v err s

/-- The words that follow the structure. -/
def restOf (v : ℕ) (s : Cpu) : List ℕ := if Unexpected v then [s.ss] else []

/-- The structure is the first of what the processor and the routine have pushed. -/
theorem foundOf_words (hv : v < 48) (herr : err.isSome = pushesError v) :
    (deliverWords err s ++ (numbers v).map s.value).reverse =
      (foundOf v err s).words ++ restOf v s := by
  unfold foundOf restOf numbers deliverWords
  cases err with
  | none =>
      have hno : ¬ v ∈ [8, 10, 11, 12, 13, 14, 17] := by simpa [pushesError] using herr
      simp only [List.mem_cons, List.not_mem_nil, or_false, not_or] at hno
      have hun : ¬ Unexpected v := by
        unfold Unexpected
        omega
      have hno' : ¬ v ∈ [10, 11, 12, 13, 14] := by
        simp only [List.mem_cons, List.not_mem_nil, or_false]
        omega
      unfold stackOf errCodeOf
      rw [if_neg hun, if_neg hun, if_neg hno']
      split_ifs <;> rfl
  | some e =>
      have hyes : v ∈ [8, 10, 11, 12, 13, 14, 17] := by simpa [pushesError] using herr.symm
      simp only [List.mem_cons, List.not_mem_nil, or_false] at hyes
      have hlt : v < 32 := by omega
      unfold stackOf shiftedOf errCodeOf
      rw [if_pos hlt, if_pos hlt]
      by_cases hun : Unexpected v
      · have hno' : ¬ v ∈ [10, 11, 12, 13, 14] := by
          unfold Unexpected at hun
          simp only [List.mem_cons, List.not_mem_nil, or_false]
          omega
        rw [if_pos hun, if_pos hun, if_neg hno']
        rfl
      · have hyes' : v ∈ [10, 11, 12, 13, 14] := by
          unfold Unexpected at hun
          simp only [List.mem_cons, List.not_mem_nil, or_false]
          omega
        rw [if_neg hun, if_neg hun, if_pos hyes']
        rfl

theorem numbers_value (hv : v < 48) : ∀ o ∈ numbers v, s.value o < 2 ^ 64 := by
  intro o ho
  have hnum : o = .imm v ∨ o = .imm 0 ∨ o = .imm (v - 32) := by
    unfold numbers at ho
    split_ifs at ho <;> simp only [List.mem_cons, List.not_mem_nil, or_false] at ho <;> grind
  rcases hnum with rfl | rfl | rfl <;> simp only [Cpu.value] <;> omega

/-- The first words of several. -/
theorem readWords_append_left {m : Mem} {a : ℕ} {l l' : List ℕ}
    (h : readWords m (l ++ l').length a = l ++ l') : readWords m l.length a = l := by
  have htake := congrArg (List.take l.length) h
  rw [List.take_left, readWords, ← List.map_take, List.take_range, List.length_append,
    min_eq_left (Nat.le_add_right _ _)] at htake
  exact htake

/-- **An interrupt of the kernel** returns to the program, but with the registers that the C function
leaves; at the vectors 8 and 17 it returns to the error code instead. -/
theorem interrupt_kernel (hs : s.Ok) (hroom : 80 ≤ s.rsp) (hv : v < 48)
    (herr : err.isSome = pushesError v) (herr' : ∀ e ∈ err, e < 2 ^ 64) :
    ∃ c : Cpu, c.reg = s.reg ∧ IntStack.load c.mem c.rsp = foundOf v err s ∧
      ∀ f : Callee → Cpu → Cpu, (f (calleeOf v) c).rsp = c.rsp →
        IntStack.load (f (calleeOf v) c).mem c.rsp = .load c.mem c.rsp →
        interrupt f routine offset selector v err s =
          if Unexpected v then
            { f (calleeOf v) c with
              rip := err.getD 0, cs := s.rip % 2 ^ 16, rflags := s.cs, rsp := s.rflags,
              ss := s.rsp % 2 ^ 16 }
          else
            { f (calleeOf v) c with
              rip := s.rip, cs := s.cs, rflags := s.rflags, rsp := s.rsp, ss := s.ss } := by
  have hwords := foundOf_words (s := s) hv herr
  have hlen : (deliverWords err s ++ (numbers v).map s.value).length ≤ 8 := by
    rw [← List.length_reverse, hwords]
    unfold foundOf restOf
    split_ifs <;> simp [IntStack.words]
  have hload := entered_words offset selector hs herr'
    (numbers_value hv) (by unfold alignedRsp; omega)
  rw [← List.length_reverse, hwords] at hload
  have hfound := IntStack.load_eq (readWords_append_left hload)
  refine ⟨entered offset selector err (numbers v) s, rfl, hfound, fun f hf hsame => ?_⟩
  rw [Stub.interrupt, routine_eq, run_append, run_entry, run_called, hf, hsame, hfound]
  unfold foundOf resume stackOf shiftedOf
  split_ifs
  · rfl
  · simp only [Nat.mod_eq_of_lt hs.cs, Nat.mod_eq_of_lt hs.ss]

theorem interrupt_kernel_alignment : ∃ c : Cpu, c.reg = program.reg ∧
    IntStack.load c.mem c.rsp = foundOf 17 (some 0) program ∧
    ∀ f : Callee → Cpu → Cpu, (f (calleeOf 17) c).rsp = c.rsp →
      IntStack.load (f (calleeOf 17) c).mem c.rsp = .load c.mem c.rsp →
      interrupt f routine 0x9000 8 17 (some 0) program =
        if Unexpected 17 then
          { f (calleeOf 17) c with
            rip := 0, cs := program.rip % 2 ^ 16, rflags := program.cs, rsp := program.rflags,
            ss := program.rsp % 2 ^ 16 }
        else
          { f (calleeOf 17) c with
            rip := program.rip, cs := program.cs, rflags := program.rflags, rsp := program.rsp,
            ss := program.ss } :=
  interrupt_kernel program_ok (by decide) (by decide) (by decide) (by simp)

end interrupt

end Kernel

end Dawos.Stub
