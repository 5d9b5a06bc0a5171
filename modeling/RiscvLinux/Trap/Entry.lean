import RiscvLinux.Trap.Hart

/-!
# `entry.S`

`SAVE_ALL`, `RESTORE_ALL`, `handle_exception` up to the choice of the handler, and
`ret_from_exception` with its two exits, instruction by instruction, and one
specification lemma for each:

* `saveAll_frame`, `saveAll_apart`: the frame holds the interrupted context and
  nothing else is written;
* `restoreAll_spec`: every register comes from the frame;
* `retFromException_left`: what an exit through `sret` restores.
-/

namespace RiscvLinux.Trap

open Lib

variable {x : XLen}

/-! ## Entry -/

/-- The stores of `SAVE_ALL` that come before the control registers. -/
def saveAllStores : List (Gpr × PtReg) :=
  [(.x1, .ra), (.x3, .gp), (.x4, .tp), (.x5, .t0), (.x6, .t1), (.x7, .t2), (.x8, .s0),
    (.x9, .s1), (.x10, .a0), (.x11, .a1), (.x12, .a2), (.x13, .a3), (.x14, .a4), (.x15, .a5),
    (.x16, .a6), (.x17, .a7), (.x18, .s2), (.x19, .s3), (.x20, .s4), (.x21, .s5), (.x22, .s6),
    (.x23, .s7), (.x24, .s8), (.x25, .s9), (.x26, .s10), (.x27, .s11), (.x28, .t3), (.x29, .t4),
    (.x30, .t5), (.x31, .t6)]

/-- The choice of the stack at the start of `SAVE_ALL`: from user mode the kernel stack
pointer comes out of `sscratch`; from the kernel a zero does, and `sp` is taken back. -/
def saveAllStack (h : Hart x) : Hart x :=
  let h := h.csrrw .sp .sscratch .sp
  let h := if h.gpr .sp = 0 then h.csrr .sp .sscratch else h
  h.set .sp (h.gpr .sp - BitVec.ofNat x.bits (ptSize x))

/-- `SAVE_ALL`. -/
def saveAll (h : Hart x) : Hart x :=
  let h := saveAllStack h
  let h := saveAllStores.foldl (fun h p => h.regS p.1 p.2) h
  let h := h.set .t0 srFs
  let h := h.csrr .s0 .sscratch
  let h := h.csrrc .s1 .sstatus .t0
  let h := h.csrr .s2 .sepc
  let h := h.csrr .s3 .sbadaddr
  let h := h.csrr .s4 .scause
  let h := h.regS .s0 .sp
  let h := h.regS .s1 .sstatus
  let h := h.regS .s2 .sepc
  let h := h.regS .s3 .sbadaddr
  h.regS .s4 .scause

/-- `THREAD_SIZE`, two pages. -/
def threadSize : Nat := 4096 <<< 1

/-- What `entry.S` takes from the linker and from `asm-offsets.c`: the global pointer, the
labels it loads, and where `task_struct` keeps its `stack`. -/
structure Symbols (x : XLen) where
  globalPointer : Word x
  retFromException : Word x
  taskThreadInfo : Word x

/-- `TI_TASK`: `task` is the first member of `struct thread_info`. -/
def tiTask : Word x := 0

/-- `TI_FLAGS`: `flags` is the second. -/
def tiFlags : Word x := BitVec.ofNat x.bits x.szreg

/-- `handle_exception` up to the choice of the handler. -/
def handleException (sym : Symbols x) (h : Hart x) : Hart x :=
  let h := saveAll h
  let h := h.csrw .sscratch 0
  let h := h.set .tp (~~~(BitVec.ofNat x.bits threadSize - 1))
  let h := h.set .tp (h.gpr .tp &&& h.gpr .sp)
  let h := h.set .tp (h.mem.readWord x.szreg (h.gpr .tp + tiTask))
  let h := h.set .gp sym.globalPointer
  h.set .ra sym.retFromException

/-! ## Exit -/

/-- The loads of `RESTORE_ALL` that come before the stack pointer. -/
def restoreAllLoads : List (Gpr × PtReg) :=
  [(.x1, .ra), (.x3, .gp), (.x4, .tp), (.x5, .t0), (.x6, .t1), (.x7, .t2), (.x8, .s0),
    (.x9, .s1), (.x10, .a0), (.x11, .a1), (.x12, .a2), (.x13, .a3), (.x14, .a4), (.x15, .a5),
    (.x16, .a6), (.x17, .a7), (.x18, .s2), (.x19, .s3), (.x20, .s4), (.x21, .s5), (.x22, .s6),
    (.x23, .s7), (.x24, .s8), (.x25, .s9), (.x26, .s10), (.x27, .s11), (.x28, .t3), (.x29, .t4),
    (.x30, .t5), (.x31, .t6)]

/-- The control registers at the start of `RESTORE_ALL`. -/
def restoreAllControl (h : Hart x) : Hart x :=
  let h := h.regL .a0 .sstatus
  let h := h.regL .a2 .sepc
  let h := h.csrw .sstatus (h.gpr .a0)
  h.csrw .sepc (h.gpr .a2)

/-- `RESTORE_ALL`. -/
def restoreAll (h : Hart x) : Hart x :=
  let h := restoreAllControl h
  let h := restoreAllLoads.foldl (fun h p => h.regL p.1 p.2) h
  h.regL .sp .sp

/-- `_TIF_WORK_MASK`: notify, signal or reschedule before the return to user mode. -/
def tifWorkMask : Word x := 0b1110

/-- `_TIF_NEED_RESCHED`. -/
def tifNeedResched : Word x := 0b1000

/-- How `ret_from_exception` ends: the trap is left, or there is work to do first. -/
inductive Exit (x : XLen)
  | left (h : Hart x)
  | work (h : Hart x)

/-- `work_pending`, up to the call of `schedule` or of `do_notify_resume`. -/
def workPending (sym : Symbols x) (h : Hart x) : Hart x :=
  let h := h.set .ra sym.retFromException
  let h := h.set .s1 (h.gpr .s0 &&& tifNeedResched)
  if h.gpr .s1 ≠ 0 then h
  else
    let h := h.csrs .sstatus srIe
    let h := h.set .a0 (h.gpr .sp)
    h.set .a1 (h.gpr .s0)

/-- `resume_userspace`. -/
def resumeUserspace (sym : Symbols x) (h : Hart x) : Exit x :=
  let h := h.set .s0 (h.mem.readWord x.szreg (h.gpr .tp + sym.taskThreadInfo))
  let h := h.set .s0 (h.mem.readWord x.szreg (h.gpr .s0 + tiFlags))
  let h := h.set .s1 (h.gpr .s0 &&& tifWorkMask)
  if h.gpr .s1 ≠ 0 then .work (workPending sym h)
  else
    let h := h.set .s0 (h.gpr .sp + BitVec.ofNat x.bits (ptSize x))
    let h := h.csrw .sscratch (h.gpr .s0)
    .left (restoreAll h).sret

/-- `ret_from_exception` up to its test of `SR_PS`. -/
def retFromExceptionTest (h : Hart x) : Hart x :=
  let h := h.regL .s0 .sstatus
  let h := h.csrc .sstatus srIe
  h.set .s0 (h.gpr .s0 &&& srPs)

/-- `ret_from_exception`. -/
def retFromException (sym : Symbols x) (h : Hart x) : Exit x :=
  let h := retFromExceptionTest h
  if h.gpr .s0 ≠ 0 then .left (restoreAll h).sret
  else resumeUserspace sym h

/-! ## Frames in memory -/

/-- The word that the frame at `a` has for a field. -/
def frameWord (m : Memory x.bits) (a : Word x) (r : PtReg) : Word x :=
  m.readWord x.szreg (field x.szreg a r.index)

/-- Two memories with the same bytes in a frame have the same words there. -/
theorem frameWord_congr {m m' : Memory x.bits} {a : Word x}
    (same : m.read a (ptSize x) = m'.read a (ptSize x)) (r : PtReg) :
    frameWord m a r = frameWord m' a r := by
  rw [frameWord, frameWord, Memory.readWord, Memory.readWord, m.read_field a r.index_lt,
    m'.read_field a r.index_lt]
  rw [show m.read a (x.szreg * 35) = m'.read a (x.szreg * 35) from same]

/-- A store to a field of the frame changes that field and no other. -/
theorem frameWord_writeWord (m : Memory x.bits) (a v : Word x) (r : PtReg) :
    frameWord (m.writeWord x.szreg (field x.szreg a r.index) v) a
      = Function.update (frameWord m a) r v := by
  funext k
  by_cases same : k = r
  · have fits : x.szreg ≤ 2 ^ x.bits :=
      Nat.le_trans (Nat.le_mul_of_pos_right _ (by decide)) (ptSize_le x)
    rw [same, Function.update_self]
    exact Memory.readWord_writeWord_same (Nat.le_of_eq x.bits_eq) fits
  · rw [Function.update_of_ne same]
    exact Memory.readWord_writeWord_apart
      (apart_field x.szreg_pos (ptSize_le x) r.index_lt k.index_lt
        fun indices => same (PtReg.index_inj indices).symm)

/-! ## What the entry does -/

/-- The stack pointer that `SAVE_ALL` puts the frame below. -/
def kernelSp (h : Hart x) : Word x :=
  if h.csr .sscratch = 0 then h.gpr .sp else h.csr .sscratch

/-- The address of the frame that `SAVE_ALL` builds. -/
def frameAddr (h : Hart x) : Word x :=
  kernelSp h - BitVec.ofNat x.bits (ptSize x)

/-- The context that a hart is in after the trap and before `SAVE_ALL`. -/
def context (h : Hart x) : PtRegs x := fun r =>
  match r.source with
  | .inl r => h.gpr r
  | .inr c => h.csr c

/-- A run of stores fills fields of the frame and touches no register. -/
theorem foldl_regS (l : List (Gpr × PtReg)) (h : Hart x) :
    l.foldl (fun h p => h.regS p.1 p.2) h
      = { h with
          mem := h.mem.storeFields x.szreg (h.gpr .sp)
            (l.map fun p => (p.2.index, h.gpr p.1)) } := by
  induction l generalizing h with
  | nil => rfl
  | cons p l ih => rw [List.foldl_cons, ih]; rfl

/-- The fields that `SAVE_ALL` stores, in its order. -/
def saveAllFields (h : Hart x) : List (Nat × Word x) :=
  (saveAllStores.map fun p => (p.2.index, h.gpr p.1))
    ++ [PtReg.sp, .sstatus, .sepc, .sbadaddr, .scause].map fun r => (r.index, context h r)

theorem saveAllStack_sp (h : Hart x) : (saveAllStack h).gpr .sp = frameAddr h := by
  simp only [saveAllStack, Hart.csrrw, Hart.gpr_set_same, frameAddr, kernelSp]
  split
  · rw [Hart.csrr, Hart.gpr_set_same, Hart.csr_set, Hart.csr_csrw_same]
  · rw [Hart.gpr_set_same]

theorem saveAllStack_gpr (h : Hart x) {r : Gpr} (differ : r ≠ .sp) :
    (saveAllStack h).gpr r = h.gpr r := by
  simp only [saveAllStack, Hart.csrrw, Hart.gpr_set_same]
  rw [Hart.gpr_set_ne _ _ differ]
  split
  · rw [Hart.csrr, Hart.gpr_set_ne _ _ differ, Hart.gpr_set_ne _ _ differ, Hart.gpr_csrw]
  · rw [Hart.gpr_set_ne _ _ differ, Hart.gpr_csrw]

theorem saveAllStack_csr (h : Hart x) :
    (saveAllStack h).csr = Function.update h.csr .sscratch (h.gpr .sp) := by
  simp only [saveAllStack, Hart.csrrw, Hart.csr_set, Hart.gpr_set_same]
  split <;> rfl

theorem saveAllStack_mem (h : Hart x) : (saveAllStack h).mem = h.mem := by
  simp only [saveAllStack, Hart.csrrw, Hart.mem_set, Hart.gpr_set_same]
  split <;> rfl

theorem saveAllStack_mode (h : Hart x) : (saveAllStack h).mode = h.mode := by
  simp only [saveAllStack, Hart.csrrw, Hart.mode_set, Hart.gpr_set_same]
  split <;> rfl

theorem saveAllStores_ne_sp : ∀ p ∈ saveAllStores, p.1 ≠ .sp := by
  decide

theorem saveAll_mem (h : Hart x) :
    (saveAll h).mem = h.mem.storeFields x.szreg (frameAddr h) (saveAllFields h) := by
  have general : (saveAllStores.map fun p => (p.2.index, (saveAllStack h).gpr p.1))
      = saveAllStores.map fun p => (p.2.index, h.gpr p.1) :=
    List.map_congr_left fun p hp => by rw [saveAllStack_gpr h (saveAllStores_ne_sp p hp)]
  rw [saveAllFields, Memory.storeFields_append, ← general, ← saveAllStack_sp,
    ← saveAllStack_mem h]
  simp only [saveAll, foldl_regS]
  simp [Hart.csrr, Hart.csrrc, Hart.regS, Hart.gpr_set_ne, Memory.storeFields, context,
    PtReg.source, saveAllStack_csr, Hart.csr_csrw_ne]

theorem saveAll_sp (h : Hart x) : (saveAll h).gpr .sp = frameAddr h := by
  simp [saveAll, foldl_regS, Hart.csrr, Hart.csrrc, Hart.gpr_set_ne, saveAllStack_sp]

/-- `SAVE_ALL` leaves the old stack pointer in `sscratch` and the floating-point unit off. -/
theorem saveAll_csr (h : Hart x) :
    (saveAll h).csr
      = Function.update (Function.update h.csr .sscratch (h.gpr .sp)) .sstatus
          (clearBits (h.csr .sstatus) srFs) := by
  simp only [saveAll, foldl_regS, Hart.csrr, Hart.csrrc, Hart.csr_set, Hart.csr_regS,
    Hart.csrw, saveAllStack_csr]
  simp [Hart.gpr_set_ne]

/-- Every field is stored once. -/
theorem saveAllFields_nodup (h : Hart x) : ((saveAllFields h).map Prod.fst).Nodup := by
  have indices : (saveAllFields h).map Prod.fst
      = (saveAllStores.map fun p => p.2.index)
        ++ [PtReg.sp, .sstatus, .sepc, .sbadaddr, .scause].map PtReg.index := by
    rw [saveAllFields, List.map_append, List.map_map, List.map_map]
    rfl
  rw [indices]
  decide

theorem saveAllFields_lt (h : Hart x) : ∀ f ∈ saveAllFields h, f.1 < 35 := by
  intro f hf
  simp only [saveAllFields, List.mem_append, List.mem_map] at hf
  rcases hf with ⟨p, -, rfl⟩ | ⟨r, -, rfl⟩
  · exact p.2.index_lt
  · exact r.index_lt

/-- Every field of `struct pt_regs` is stored, from the register it is for. -/
theorem mem_saveAllStores (r : PtReg) :
    (∃ g, (g, r) ∈ saveAllStores ∧ r.source = .inl g)
      ∨ r ∈ [PtReg.sp, .sstatus, .sepc, .sbadaddr, .scause] := by
  cases r <;> first | exact .inr (by decide) | exact .inl ⟨_, by decide, rfl⟩

theorem context_mem_saveAllFields (h : Hart x) (r : PtReg) :
    (r.index, context h r) ∈ saveAllFields h := by
  rw [saveAllFields, List.mem_append]
  rcases mem_saveAllStores r with ⟨g, stored, source⟩ | late
  · have general : context h r = h.gpr g := by rw [context, source]
    exact .inl (List.mem_map.mpr ⟨(g, r), stored, by rw [general]⟩)
  · exact .inr (List.mem_map.mpr ⟨r, late, rfl⟩)

/-- The frame that `SAVE_ALL` builds holds the interrupted context. -/
theorem saveAll_frame (h : Hart x) (r : PtReg) :
    frameWord (saveAll h).mem (frameAddr h) r = context h r := by
  rw [saveAll_mem]
  exact Memory.readWord_storeFields_of_mem x.szreg_pos (ptSize_le x) (Nat.le_of_eq x.bits_eq)
    (saveAllFields_lt h) (saveAllFields_nodup h) (context_mem_saveAllFields h r) h.mem

/-- `SAVE_ALL` writes nothing but its frame. -/
theorem saveAll_apart (h : Hart x) {b : Word x} {n : Nat}
    (apart : Apart (frameAddr h) (ptSize x) b n) : (saveAll h).mem.read b n = h.mem.read b n := by
  rw [saveAll_mem]
  exact Memory.read_storeFields_apart x.szreg_pos (saveAllFields_lt h) apart h.mem

theorem handleException_mem (sym : Symbols x) (h : Hart x) :
    (handleException sym h).mem = (saveAll h).mem :=
  rfl

theorem handleException_mode (sym : Symbols x) (h : Hart x) :
    (handleException sym h).mode = h.mode := by
  simp [handleException, saveAll, foldl_regS, Hart.csrr, Hart.csrrc, saveAllStack_mode]

theorem handleException_sscratch (sym : Symbols x) (h : Hart x) :
    (handleException sym h).csr .sscratch = 0 := by
  simp [handleException]

theorem handleException_sstatus (sym : Symbols x) (h : Hart x) :
    (handleException sym h).csr .sstatus = saveAllStatus (h.csr .sstatus) := by
  simp [handleException, Hart.csr_csrw_ne, saveAll_csr, saveAllStatus]

theorem handleException_sp (sym : Symbols x) (h : Hart x) :
    (handleException sym h).gpr .sp = frameAddr h := by
  simp [handleException, Hart.gpr_set_ne, saveAll_sp]

/-! ## What the exit does -/

/-- Loads out of the frame: the registers named get their words, and the stack pointer,
the control registers and the memory stay. -/
theorem foldl_regL {l : List (Gpr × PtReg)} (fields : ∀ p ∈ l, p.1 ≠ .sp ∧ p.2 = p.1.slot)
    (h : Hart x) :
    let h' := l.foldl (fun h p => h.regL p.1 p.2) h
    (∀ r, r ∈ l.map Prod.fst ∨ h.gpr r = frameWord h.mem (h.gpr .sp) r.slot →
        h'.gpr r = frameWord h.mem (h.gpr .sp) r.slot)
      ∧ h'.gpr .sp = h.gpr .sp ∧ h'.csr = h.csr ∧ h'.mem = h.mem := by
  induction l generalizing h with
  | nil => exact ⟨fun r hr => hr.resolve_left List.not_mem_nil, rfl, rfl, rfl⟩
  | cons p l ih =>
    obtain ⟨notSp, slot⟩ := fields p List.mem_cons_self
    obtain ⟨loaded, stack, control, memory⟩ :=
      ih (fun q hq => fields q (List.mem_cons_of_mem p hq)) (h.regL p.1 p.2)
    have sameSp : (h.regL p.1 p.2).gpr .sp = h.gpr .sp := Hart.gpr_set_ne _ _ (Ne.symm notSp)
    rw [sameSp] at loaded stack
    refine ⟨fun r hr => ?_, stack, control, memory⟩
    refine loaded r ?_
    by_cases here : r = p.1
    · right
      rw [here, ← slot]
      exact Hart.gpr_set_same ..
    · rw [List.map_cons, List.mem_cons, or_assoc] at hr
      rcases hr with same | later | already
      · exact absurd same here
      · exact .inl later
      · exact .inr ((Hart.gpr_set_ne _ _ here).trans already)

theorem restoreAllLoads_fields : ∀ p ∈ restoreAllLoads, p.1 ≠ .sp ∧ p.2 = p.1.slot := by
  decide

theorem mem_restoreAllLoads {r : Gpr} (differ : r ≠ .sp) : r ∈ restoreAllLoads.map Prod.fst := by
  cases r <;> simp_all [restoreAllLoads]

theorem restoreAllControl_sp (h : Hart x) : (restoreAllControl h).gpr .sp = h.gpr .sp := by
  simp [restoreAllControl, Hart.regL, Hart.gpr_set_ne]

theorem restoreAllControl_mem (h : Hart x) : (restoreAllControl h).mem = h.mem := by
  simp [restoreAllControl, Hart.regL]

theorem restoreAllControl_csr (h : Hart x) :
    (restoreAllControl h).csr
      = Function.update (Function.update h.csr .sstatus
          (frameWord h.mem (h.gpr .sp) .sstatus)) .sepc (frameWord h.mem (h.gpr .sp) .sepc) := by
  simp [restoreAllControl, Hart.regL, Hart.csrw, Hart.gpr_set_ne, frameWord]

/-- `RESTORE_ALL` loads every general register from its field of the frame, and `sstatus`
and `sepc` with them. -/
theorem restoreAll_spec (h : Hart x) :
    (∀ r, (restoreAll h).gpr r = frameWord h.mem (h.gpr .sp) r.slot)
      ∧ (restoreAll h).csr
          = Function.update (Function.update h.csr .sstatus
              (frameWord h.mem (h.gpr .sp) .sstatus)) .sepc (frameWord h.mem (h.gpr .sp) .sepc)
      ∧ (restoreAll h).mem = h.mem := by
  obtain ⟨loaded, stack, control, memory⟩ :=
    foldl_regL restoreAllLoads_fields (restoreAllControl h)
  rw [restoreAllControl_sp, restoreAllControl_mem] at loaded
  rw [restoreAllControl_sp] at stack
  rw [restoreAllControl_csr] at control
  rw [restoreAllControl_mem] at memory
  refine ⟨fun r => ?_, ?_, ?_⟩
  · rw [restoreAll, Hart.regL, stack, memory]
    by_cases isSp : r = .sp
    · rw [isSp, Hart.gpr_set_same]
      rfl
    · rw [Hart.gpr_set_ne _ _ isSp]
      exact loaded r (.inl (mem_restoreAllLoads isSp))
  · rw [restoreAll, Hart.regL, Hart.csr_set, control]
  · rw [restoreAll, Hart.regL, Hart.mem_set, memory]

/-- What a left trap restores: the registers and the place of the frame that the stack
pointer is at, in the mode its status names; for user mode `sscratch` becomes the end of the
frame. -/
structure Restores (h h' : Hart x) : Prop where
  gpr : ∀ r, h'.gpr r = frameWord h.mem (h.gpr .sp) r.slot
  pc : h'.pc = frameWord h.mem (h.gpr .sp) .sepc
  mode : h'.mode = sretMode (frameWord h.mem (h.gpr .sp) .sstatus)
  sstatus : h'.csr .sstatus = sretStatus (frameWord h.mem (h.gpr .sp) .sstatus)
  sscratch : h'.csr .sscratch = match h'.mode with
    | .user => h.gpr .sp + BitVec.ofNat x.bits (ptSize x)
    | .supervisor => h.csr .sscratch
  mem : h'.mem = h.mem

/-- `RESTORE_ALL` and `sret`, from a state with the stack pointer and the memory of `h`. -/
theorem sret_restoreAll {h g : Hart x} (sp : g.gpr .sp = h.gpr .sp) (mem : g.mem = h.mem) :
    (∀ r, (restoreAll g).sret.gpr r = frameWord h.mem (h.gpr .sp) r.slot)
      ∧ (restoreAll g).sret.pc = frameWord h.mem (h.gpr .sp) .sepc
      ∧ (restoreAll g).sret.mode = sretMode (frameWord h.mem (h.gpr .sp) .sstatus)
      ∧ (restoreAll g).sret.csr .sstatus = sretStatus (frameWord h.mem (h.gpr .sp) .sstatus)
      ∧ (restoreAll g).sret.csr .sscratch = g.csr .sscratch
      ∧ (restoreAll g).sret.mem = h.mem := by
  obtain ⟨general, control, memory⟩ := restoreAll_spec g
  rw [sp, mem] at general control
  rw [mem] at memory
  rw [Hart.gpr_sret, Hart.pc_sret, Hart.mode_sret, Hart.sstatus_sret, Hart.sscratch_sret,
    Hart.mem_sret, control]
  exact ⟨general, Function.update_self .., by simp, by simp, by simp, memory⟩

theorem retFromExceptionTest_s0 (h : Hart x) :
    (retFromExceptionTest h).gpr .s0 = frameWord h.mem (h.gpr .sp) .sstatus &&& srPs := by
  simp [retFromExceptionTest, Hart.regL, Hart.csrc, frameWord]

theorem retFromExceptionTest_keeps (h : Hart x) :
    (retFromExceptionTest h).gpr .sp = h.gpr .sp ∧ (retFromExceptionTest h).mem = h.mem
      ∧ (retFromExceptionTest h).csr .sscratch = h.csr .sscratch
      ∧ (retFromExceptionTest h).mode = h.mode := by
  simp [retFromExceptionTest, Hart.regL, Hart.csrc, Hart.gpr_set_ne, Hart.csr_csrw_ne]

theorem resumeUserspace_left {sym : Symbols x} {h g h' : Hart x}
    (sp : g.gpr .sp = h.gpr .sp) (mem : g.mem = h.mem)
    (user : frameWord h.mem (h.gpr .sp) .sstatus &&& srPs = 0)
    (exit : resumeUserspace sym g = .left h') : Restores h h' := by
  simp only [resumeUserspace, Hart.gpr_set_same] at exit
  split at exit
  · exact absurd exit nofun
  · rw [Exit.left.injEq] at exit
    subst exit
    obtain ⟨general, place, mode, status', sscratch, memory⟩ := sret_restoreAll (h := h)
      (g := (((((g.set .s0 _).set .s0 _).set .s1 _).set .s0 _).csrw .sscratch _))
      (by simp [Hart.gpr_set_ne, sp]) (by simp [mem])
    refine ⟨general, place, mode, status', ?_, memory⟩
    rw [mode, sretMode, if_pos user]
    refine sscratch.trans ?_
    simp [Hart.gpr_set_ne, sp]

theorem retFromException_left {sym : Symbols x} {h h' : Hart x}
    (exit : retFromException sym h = .left h') : Restores h h' := by
  obtain ⟨sp, mem, scratch, -⟩ := retFromExceptionTest_keeps h
  have status := retFromExceptionTest_s0 h
  simp only [retFromException] at exit
  split at exit
  · rename_i kernel
    obtain ⟨general, place, mode, status', sscratch, memory⟩ := sret_restoreAll sp mem
    rw [Exit.left.injEq] at exit
    subst exit
    refine ⟨general, place, mode, status', ?_, memory⟩
    rw [mode, sretMode, if_neg (status ▸ kernel)]
    exact sscratch.trans scratch
  · rename_i user
    exact resumeUserspace_left sp mem (status ▸ not_not.mp user) exit

/-- `current_thread_info()->flags`, as `resume_userspace` reads it. -/
def threadFlags (sym : Symbols x) (h : Hart x) : Word x :=
  h.mem.readWord x.szreg
    (h.mem.readWord x.szreg (h.gpr .tp + sym.taskThreadInfo) + tiFlags)

/-- A trap from user mode is left when no work is pending. -/
theorem retFromException_leaves {sym : Symbols x} {h : Hart x}
    (user : frameWord h.mem (h.gpr .sp) .sstatus &&& srPs = 0)
    (idle : threadFlags sym h &&& tifWorkMask = 0) : ∃ h', retFromException sym h = .left h' := by
  have status := retFromExceptionTest_s0 h
  have tp : (retFromExceptionTest h).gpr .tp = h.gpr .tp := by
    simp [retFromExceptionTest, Hart.regL, Hart.csrc, Hart.gpr_set_ne]
  have mem : (retFromExceptionTest h).mem = h.mem := (retFromExceptionTest_keeps h).2.1
  rw [threadFlags] at idle
  simp [retFromException, status, user, resumeUserspace, tp, mem, idle]

/-- A trap from kernel code is left at once. -/
theorem retFromException_leaves_kernel {sym : Symbols x} {h : Hart x}
    (kernel : frameWord h.mem (h.gpr .sp) .sstatus &&& srPs ≠ 0) :
    ∃ h', retFromException sym h = .left h' := by
  rw [← retFromExceptionTest_s0] at kernel
  exact ⟨_, if_pos kernel⟩

/-- When there is work to do first, the kernel goes on on the same frame. -/
theorem retFromException_work {sym : Symbols x} {h h' : Hart x}
    (exit : retFromException sym h = .work h') :
    h'.mode = h.mode ∧ h'.mem = h.mem ∧ h'.csr .sscratch = h.csr .sscratch := by
  obtain ⟨-, mem, scratch, mode⟩ := retFromExceptionTest_keeps h
  simp only [retFromException] at exit
  split at exit
  · exact absurd exit nofun
  · simp only [resumeUserspace, Hart.gpr_set_same] at exit
    split at exit
    · rw [Exit.work.injEq] at exit
      subst exit
      rw [← mem, ← scratch, ← mode]
      simp only [workPending, Hart.gpr_set_same]
      split <;> simp [Hart.csrs, Hart.csr_csrw_ne]
    · exact absurd exit nofun

end RiscvLinux.Trap
