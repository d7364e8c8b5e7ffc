import Nachos.Machine.Parallel

/-!
# An interrupt between two instructions

`CheckIfDue` calls `DelayedLoad(0, 0)` before it runs a handler, and so does
`RaiseException` before it enters the kernel.  A load that was still pending is
then applied one instruction early.  The program computes the same as without
the interrupt exactly if the next instruction does not write the register the
load is for: `DelayedLoad` runs after the instruction and overwrites what the
instruction has put there.
-/

namespace Nachos
namespace Machine

open Lib

/-- The machine with a load of `v` into `g` pending. -/
def pending (m : Machine) (g : GPReg) (v : Word) : Machine :=
  { m with registers := fun j =>
      if j = loadReg then regNo g else if j = loadValueReg then v else m.registers j }

/-- The next instruction, and then the load it may have started. -/
def uninterrupted : Sim Unit := do
  oneInstruction
  delayedLoad 0 0

/-- The same with an interrupt before the instruction. -/
def interrupted : Sim Unit := do
  delayedLoad 0 0
  oneInstruction
  delayedLoad 0 0

/-- An instruction that raises no exception ends in the same registers and the
same memory with an interrupt before it. -/
def Invisible (m : Machine) : Prop :=
  ∀ m', uninterrupted m = .ok () m' → interrupted m = .ok () m'

/-- The word at a virtual address. -/
def Memory.word (mem : Memory) (addr : Word) : Option Word :=
  match translate addr 4 false mem with
  | .ok (.ok physicalAddress) mem' =>
    match fetch physicalAddress 4 mem' with
    | .ok w _ => some w
    | .error _ _ => none
  | _ => none

/-- The next instruction. -/
def fetched (m : Machine) : Option Instruction :=
  (m.memory.word (m.registers pcReg)).map decode

/-- `OneInstruction` up to the end of the `switch`. -/
def dispatch : Sim Next := do
  let pc ← reg pcReg
  let raw ← readMem pc 4
  execute (decode raw)

/-! ## The parts of a run -/

theorem oneInstruction_ok {m m' : Machine} :
    oneInstruction m = .ok () m' ↔
      ∃ n m₂, dispatch m = .ok n m₂ ∧ retire n m₂ = .ok () m' := by
  unfold oneInstruction dispatch
  simp only [bind_ok]
  constructor
  · rintro ⟨pc, m₀, hpc, raw, m₁, hraw, n, m₂, hn, hret⟩
    exact ⟨n, m₂, ⟨pc, m₀, hpc, raw, m₁, hraw, hn⟩, hret⟩
  · rintro ⟨n, m₂, ⟨pc, m₀, hpc, raw, m₁, hraw, hn⟩, hret⟩
    exact ⟨pc, m₀, hpc, raw, m₁, hraw, n, m₂, hn, hret⟩

theorem fetched_of_readMem {m m₁ : Machine} {raw : Word}
    (h : readMem (m.registers pcReg) 4 m = .ok raw m₁) : fetched m = some (decode raw) := by
  unfold readMem at h
  obtain ⟨found, m₀, htr, h⟩ := bind_ok.mp h
  unfold onMemory at htr
  unfold fetched Memory.word
  cases hrun : translate (m.registers pcReg) 4 false m.memory with
  | error e mem =>
    rw [hrun] at htr
    cases htr
  | ok found' mem =>
    rw [hrun] at htr
    cases htr
    cases found with
    | error e =>
      -- `RaiseException` does not return.
      obtain ⟨_, _, _, h⟩ := bind_ok.mp h
      obtain ⟨_, _, _, h⟩ := bind_ok.mp h
      cases h
    | ok physicalAddress =>
      unfold onMemory at h
      show Option.map decode (match fetch physicalAddress 4 mem with
        | .ok w _ => some w
        | .error _ _ => none) = _
      cases hf : fetch physicalAddress 4 mem with
      | error e mem' =>
        simp only [hf] at h
        cases h
      | ok w mem' =>
        simp only [hf] at h
        cases h
        rfl

/-- Two machines that differ in registers the instruction does not read. -/
theorem dispatch_agree {m m' m₂ : Machine} {i : Instruction} {n : Next}
    (hmem : m.memory = m'.memory) (hc : Comparable m.registers m'.registers)
    (hi : fetched m = some i) (hreads : Reads m.registers m'.registers i)
    (hrun : dispatch m = .ok n m₂) :
    ∃ m₂', dispatch m' = .ok n m₂' ∧ Done m.registers m'.registers i n m₂ m₂' := by
  unfold dispatch at hrun ⊢
  obtain ⟨pc, m₀, hpc, hrun⟩ := bind_ok.mp hrun
  cases hpc
  obtain ⟨raw, m₁, hraw, hrun⟩ := bind_ok.mp hrun
  have hdec : decode raw = i := Option.some.inj ((fetched_of_readMem hraw).symm.trans hi)
  rw [hdec] at hrun
  have hstart : After m.registers m'.registers none m m' :=
    (Parallel.start hmem).close hc (Set.subset_univ _) fun _ hg => nomatch hg
  obtain ⟨m₁', hraw', h₁⟩ := (agree_readMem hc _ 4 (loadReg_kept none)).ok hstart hraw
  obtain ⟨m₂', hn', h₂⟩ := (execute_agree hc hreads).ok h₁ hrun
  refine ⟨m₂', ?_, h₂⟩
  rw [bind_run (show reg pcReg m' = .ok (m'.registers pcReg) m' from rfl), ← hc.pc,
    bind_run hraw', hdec]
  exact hn'

/-! ## The pending load applied early -/

section Pending

variable {r : Registers} {g : GPReg}

theorem regNo_ne_zero (hg : g ≠ 0) : regNo g ≠ 0 := by
  intro h
  apply hg
  apply Fin.ext
  rw [← regNo_toNat g, h]
  rfl

theorem regNo_inj {h : GPReg} (hgh : regNo g = regNo h) : g = h := by
  apply Fin.ext
  rw [← regNo_toNat g, hgh, regNo_toNat]

theorem gp_ne_zero (hg : g ≠ 0) : gp g ≠ 0 := fun h => hg (gp_inj h)

theorem regNo_inRange (g : GPReg) : (regNo g).toNat < numTotalRegs := by
  rw [regNo_toNat]
  have := g.isLt
  simp only [numTotalRegs]
  omega

theorem loaded_loadReg (r : Registers) (a b : Word) : loaded r a b loadReg = a := rfl

theorem loaded_loadValueReg (r : Registers) (a b : Word) : loaded r a b loadValueReg = b := rfl

/-- A register that no pending load is for keeps its value. -/
theorem loaded_of_ne {j : Reg} (a b : Word) (hj : j ≠ 0) (hl : j ≠ loadReg)
    (hv : j ≠ loadValueReg) (h : j.val ≠ (r loadReg).toNat) : loaded r a b j = r j := by
  unfold loaded
  rw [if_neg hj, if_neg hv, if_neg hl, if_neg h]

theorem loaded_gp (h : r loadReg = regNo g) (hg : g ≠ 0) (a b : Word) :
    loaded r a b (gp g) = r loadValueReg := by
  have hl : gp g ≠ loadReg := (gp_ne_special (by decide)).symm
  have hv : gp g ≠ loadValueReg := (gp_ne_special (by decide)).symm
  unfold loaded
  rw [if_neg (gp_ne_zero hg), if_neg hv, if_neg hl, h, regNo_toNat, gp_val, if_pos rfl]

/-- Register 0 takes no load. -/
theorem loaded_none {j : Reg} (h : r loadReg = 0) (a b : Word) (hj : j ≠ 0) (hl : j ≠ loadReg)
    (hv : j ≠ loadValueReg) : loaded r a b j = r j := by
  refine loaded_of_ne a b hj hl hv fun h0 => hj (Fin.ext ?_)
  rw [h0, h]
  rfl

/-- The register files before and after `DelayedLoad(0, 0)` differ only in the
register of the load and in the two registers that describe it. -/
theorem loaded_other {j : Reg} (h : r loadReg = regNo g) (hzero : r 0 = 0) (hl : j ≠ loadReg)
    (hv : j ≠ loadValueReg) (hj : j ≠ gp g) (a b : Word) : loaded r a b j = r j := by
  by_cases h0 : j = 0
  · rw [h0, loaded_zero, hzero]
  · refine loaded_of_ne a b h0 hl hv fun hjg => hj (Fin.ext ?_)
    rw [hjg, h, regNo_toNat, gp_val]

theorem comparable_loaded (h : r loadReg = regNo g) (hzero : r 0 = 0) :
    Comparable r (loaded r 0 0) := by
  have hother : ∀ j : Reg, 32 ≤ j.val → j ≠ loadReg → j ≠ loadValueReg →
      r j = loaded r 0 0 j :=
    fun j hj hl hv => (loaded_other h hzero hl hv (gp_ne_special hj) 0 0).symm
  refine ⟨hother _ (by decide) (by decide) (by decide), hother _ (by decide) (by decide)
    (by decide), hother _ (by decide) (by decide) (by decide), hother _ (by decide) (by decide)
    (by decide), ?_, ?_⟩
  · rw [h]
    exact regNo_inRange g
  · rw [loaded_loadReg]
    decide

/-- An unaligned load into the register starts from the pending value, applied
or not. -/
theorem reads_loaded {i : Instruction} (h : r loadReg = regNo g) (hzero : r 0 = 0) (hg : g ≠ 0)
    (hsrc : g ∉ i.sources) : Reads r (loaded r 0 0) i := by
  have hgp : ∀ s : GPReg, s ≠ g → r (gp s) = loaded r 0 0 (gp s) := fun s hs =>
    (loaded_other h hzero (gp_ne_special (by decide)).symm (gp_ne_special (by decide)).symm
      (fun hsg => hs (gp_inj hsg)) 0 0).symm
  refine ⟨fun s hs => hgp s fun hsg => hsrc (hsg ▸ hs), fun _ => ?_⟩
  unfold pendingValue
  rw [loaded_loadReg, loaded_loadValueReg, h]
  by_cases hrt : i.rt = g
  · rw [hrt, if_pos rfl, if_neg (regNo_ne_zero hg).symm, loaded_gp h hg]
  · rw [if_neg fun he => hrt (regNo_inj he).symm]
    by_cases h0 : i.rt = 0
    · have hrt0 : (0 : Word) = regNo i.rt := by rw [h0]; rfl
      rw [if_pos hrt0, h0]
      exact hzero
    · rw [if_neg (regNo_ne_zero h0).symm]
      exact hgp _ hrt

end Pending

/-! ## The two runs -/

section Runs

variable {m : Machine} {g : GPReg} {i : Instruction} {n : Next}

theorem Next.Starts.inRange (h : n.Starts i) : n.nextLoadReg.toNat < numTotalRegs := by
  rcases h with h | ⟨_, h⟩
  · rw [h]; decide
  · rw [h]
    exact regNo_inRange i.rt

/-- The end of a run: the switch is done, and the last `DelayedLoad` too. -/
def finished (r : Registers) (n : Next) : Registers := loaded (retired r n) 0 0

theorem retired_loadReg (r : Registers) (n : Next) : retired r n loadReg = n.nextLoadReg := rfl

theorem finish_run {m₂ : Machine} (h : (m₂.registers loadReg).toNat < numTotalRegs)
    (hn : n.nextLoadReg.toNat < numTotalRegs) :
    (do retire n; delayedLoad 0 0) m₂ =
      .ok () { m₂ with registers := finished m₂.registers n } := by
  rw [bind_run (retire_run h n)]
  exact delayedLoad_run hn 0 0

theorem uninterrupted_run {m₂ : Machine} (hrun : dispatch m = .ok n m₂)
    (h : (m₂.registers loadReg).toNat < numTotalRegs)
    (hn : n.nextLoadReg.toNat < numTotalRegs) :
    uninterrupted m = .ok () { m₂ with registers := finished m₂.registers n } := by
  obtain ⟨_, m₃, hret, hload⟩ := bind_ok.mp (finish_run h hn)
  have hone : oneInstruction m = .ok () m₃ := oneInstruction_ok.mpr ⟨n, m₂, hrun, hret⟩
  unfold uninterrupted
  rw [bind_run hone]
  exact hload

theorem interrupted_run {m₂ : Machine} (hm : (m.registers loadReg).toNat < numTotalRegs)
    (hrun : dispatch { m with registers := loaded m.registers 0 0 } = .ok n m₂)
    (h : (m₂.registers loadReg).toNat < numTotalRegs)
    (hn : n.nextLoadReg.toNat < numTotalRegs) :
    interrupted m = .ok () { m₂ with registers := finished m₂.registers n } := by
  unfold interrupted
  rw [bind_run (delayedLoad_run hm 0 0)]
  exact uninterrupted_run hrun h hn

/-- The registers at the end are a function of those after `DelayedLoad`. -/
theorem finished_congr {r s : Registers}
    (h : loaded r n.nextLoadReg n.nextLoadValue = loaded s n.nextLoadReg n.nextLoadValue) :
    finished r n = finished s n := by
  have hret : retired r n = retired s n := by
    unfold retired
    rw [h]
  unfold finished
  rw [hret]

/-- An instruction that starts no load leaves its general registers as
`DelayedLoad` has them. -/
theorem finished_gp {r : Registers} (hg : g ≠ 0) (hn : n.nextLoadReg = 0) :
    finished r n (gp g) = loaded r n.nextLoadReg n.nextLoadValue (gp g) := by
  have hne : ∀ j : Reg, 32 ≤ j.val → gp g ≠ j := fun j hj => (gp_ne_special hj).symm
  unfold finished
  rw [loaded_none (by rw [retired_loadReg, hn]) 0 0 (gp_ne_zero hg) (hne _ (by decide))
    (hne _ (by decide))]
  unfold retired
  show (if gp g = nextPCReg then _ else if gp g = pcReg then _ else if gp g = prevPCReg then _
    else _) = _
  rw [if_neg (hne _ (by decide)), if_neg (hne _ (by decide)), if_neg (hne _ (by decide))]

/-- The two runs after the switch, the pending load `v` of `g` in the one and
already applied in the other. -/
structure Raced (m : Machine) (g : GPReg) (i : Instruction) (n : Next) (m₂ m₂' : Machine) :
    Prop where
  run : uninterrupted m = .ok () { m₂ with registers := finished m₂.registers n }
  run' : interrupted m = .ok () { m₂' with registers := finished m₂'.registers n }
  starts : n.Starts i
  load : m₂.registers loadReg = regNo g
  value : m₂.registers loadValueReg = m.registers loadValueReg
  load' : m₂'.registers loadReg = 0
  done : After m.registers (loaded m.registers 0 0) i.dest m₂ m₂'

theorem loadValueReg_kept (d : Option GPReg) : loadValueReg ∈ kept d :=
  ⟨by decide, by decide, fun _ _ => gp_ne_special (by decide)⟩

theorem race {m₂ : Machine} (hload : m.registers loadReg = regNo g) (hzero : m.registers 0 = 0)
    (hg : g ≠ 0) (hi : fetched m = some i) (hsrc : g ∉ i.sources)
    (hrun : dispatch m = .ok n m₂) : ∃ m₂', Raced m g i n m₂ m₂' := by
  have hc := comparable_loaded hload hzero
  have hreads := reads_loaded hload hzero hg hsrc
  have hmem : m.memory = ({ m with registers := loaded m.registers 0 0 } : Machine).memory := rfl
  obtain ⟨m₂', hrun', hdone, hstarts⟩ := dispatch_agree hmem hc hi hreads hrun
  have hl := hdone.left _ (loadReg_kept _)
  have hl' := hdone.right _ (loadReg_kept _)
  refine ⟨m₂', uninterrupted_run hrun ?_ hstarts.inRange,
    interrupted_run hc.load hrun' ?_ hstarts.inRange, hstarts, hl.trans hload,
    hdone.left _ (loadValueReg_kept _), hl', hdone⟩
  · rw [hl]; exact hc.load
  · rw [hl']; exact hc.load'

/-- Unless the instruction writes the register of the load, both runs have the
same registers once the load is done. -/
theorem Raced.loaded_eq {m₂ m₂' : Machine} (h : Raced m g i n m₂ m₂') (hg : g ≠ 0)
    (hload : m.registers loadReg = regNo g) (hzero : m.registers 0 = 0) (hd : i.dest ≠ some g)
    (a b : Word) : loaded m₂.registers a b = loaded m₂'.registers a b := by
  funext j
  by_cases h0 : j = 0
  · rw [h0, loaded_zero, loaded_zero]
  by_cases hl : j = loadReg
  · rw [hl, loaded_loadReg, loaded_loadReg]
  by_cases hv : j = loadValueReg
  · rw [hv, loaded_loadValueReg, loaded_loadValueReg]
  rw [loaded_none h.load' a b h0 hl hv]
  by_cases hj : j = gp g
  · rw [hj, loaded_gp h.load hg, h.value, h.done.right _ (gp_kept hd), loaded_gp hload hg]
  · have hne : j.val ≠ (m₂.registers loadReg).toNat := by
      rw [h.load, regNo_toNat]
      exact fun he => hj (Fin.ext he)
    rw [loaded_of_ne a b h0 hl hv hne]
    exact h.done.read (loaded_other hload hzero hl hv hj 0 0).symm

/-- The instruction goes the same way whatever value is pending, if it is no
unaligned load. -/
theorem dispatch_pending {m₂ : Machine} {v : Word} (hi : fetched m = some i)
    (hd : i.dest ≠ none) (hrun : dispatch (m.pending g v) = .ok n m₂) (v' : Word) :
    ∃ m₂', dispatch (m.pending g v') = .ok n m₂' ∧
      Done (m.pending g v).registers (m.pending g v').registers i n m₂ m₂' := by
  have hload : (m.pending g v).registers loadReg = regNo g := rfl
  have hc : Comparable (m.pending g v).registers (m.pending g v').registers :=
    ⟨rfl, rfl, rfl, rfl, regNo_inRange g, regNo_inRange g⟩
  have hgp : ∀ s u, (m.pending g u).registers (gp s) = m.registers (gp s) := by
    intro s u
    show (if gp s = loadReg then _ else if gp s = loadValueReg then _ else _) = _
    rw [if_neg (gp_ne_special (by decide)).symm, if_neg (gp_ne_special (by decide)).symm]
  have hreads : Reads (m.pending g v).registers (m.pending g v').registers i := by
    refine ⟨fun s _ => (hgp s v).trans (hgp s v').symm, fun hop => absurd ?_ hd⟩
    unfold Instruction.dest
    rcases hop with hop | hop <;> rw [hop]
  exact dispatch_agree rfl hc hi hreads hrun

/-- An instruction that writes the register of the pending load: without the
interrupt the register ends with the pending value, with it it ends with what
the instruction has written. -/
theorem overwritten {m₂ : Machine} {v : Word} (hzero : m.registers 0 = 0) (hg : g ≠ 0)
    (hi : fetched m = some i) (hsrc : g ∉ i.sources) (hd : i.dest = some g)
    (hrun : dispatch (m.pending g v) = .ok n m₂) (v' : Word) :
    ∃ m₁ m₁', uninterrupted (m.pending g v') = .ok () m₁ ∧
      interrupted (m.pending g v') = .ok () m₁' ∧
      m₁.registers (gp g) = v' ∧ m₁'.registers (gp g) = m₂.registers (gp g) := by
  have hsome : i.dest ≠ none := by rw [hd]; exact fun h => nomatch h
  obtain ⟨m₃, hrun', hsame, _⟩ := dispatch_pending hi hsome hrun v'
  obtain ⟨m₃', h⟩ := race (m := m.pending g v') rfl hzero hg hi hsrc hrun'
  have hno : n.nextLoadReg = 0 := h.starts.resolve_right fun hs => hsome hs.1
  have hgone : gp g ∉ kept i.dest := fun hk => hk.2.2 g hd rfl
  refine ⟨_, _, h.run, h.run', ?_, ?_⟩
  · show finished m₃.registers n (gp g) = v'
    rw [finished_gp hg hno, loaded_gp h.load hg]
    exact h.value
  · show finished m₃'.registers n (gp g) = m₂.registers (gp g)
    have hne : ∀ j : Reg, 32 ≤ j.val → gp g ≠ j := fun j hj => (gp_ne_special hj).symm
    rw [finished_gp hg hno, loaded_none h.load' _ _ (gp_ne_zero hg) (hne _ (by decide))
      (hne _ (by decide)), ← h.done.written _ hgone]
    exact (hsame.written _ hgone).symm

theorem dispatch_of_uninterrupted {m' : Machine} (h : uninterrupted m = .ok () m') :
    ∃ n m₂, dispatch m = .ok n m₂ := by
  unfold uninterrupted at h
  obtain ⟨_, m₁, hone, _⟩ := bind_ok.mp h
  obtain ⟨n, m₂, hrun, _⟩ := oneInstruction_ok.mp hone
  exact ⟨n, m₂, hrun⟩

theorem invisible_of_dest_ne (hload : m.registers loadReg = regNo g) (hzero : m.registers 0 = 0)
    (hg : g ≠ 0) (hi : fetched m = some i) (hsrc : g ∉ i.sources) (hd : i.dest ≠ some g) :
    Invisible m := by
  intro m' hm'
  obtain ⟨n, m₂, hrun⟩ := dispatch_of_uninterrupted hm'
  obtain ⟨m₂', h⟩ := race hload hzero hg hi hsrc hrun
  have hm₂ : .ok () m' = EStateM.Result.ok () _ := hm'.symm.trans h.run
  cases hm₂
  rw [h.run', h.done.memory, finished_congr (h.loaded_eq hg hload hzero hd _ _)]

end Runs

/-- **The moment of an interrupt.**  Register 0 is zero, a load into `g` is
pending, and the next instruction does not take `g` as an operand and raises no
exception.  The interrupt is invisible for every value the load may bring
exactly if the instruction does not write `g`. -/
theorem interrupt_invisible_iff {m : Machine} {g : GPReg} {i : Instruction}
    (hzero : m.registers 0 = 0) (hg : g ≠ 0) (hi : fetched m = some i) (hsrc : g ∉ i.sources)
    (hrun : ∃ v m', uninterrupted (m.pending g v) = .ok () m') :
    (∀ v, Invisible (m.pending g v)) ↔ i.dest ≠ some g := by
  constructor
  · intro hinv hd
    obtain ⟨v, m', hm'⟩ := hrun
    obtain ⟨n, m₂, hdis⟩ := dispatch_of_uninterrupted hm'
    -- A pending value that the instruction does not happen to write.
    obtain ⟨m₁, m₁', h₁, h₁', hv, hw⟩ :=
      overwritten hzero hg hi hsrc hd hdis (m₂.registers (gp g) + 1)
    have hsame : EStateM.Result.ok () m₁ = .ok () m₁' := (hinv _ m₁ h₁).symm.trans h₁'
    cases hsame
    have hplus : m₂.registers (gp g) + 1 = m₂.registers (gp g) := hv.symm.trans hw
    bv_omega
  · intro hd v
    exact invisible_of_dest_ne rfl hzero hg hi hsrc hd

/-! ## A load followed by a write of its register -/

/-- `ORI r2, r0, 5`, least significant byte first, on the first page. -/
def oriBytes : Fin memorySize → UInt8 := fun a =>
  if a.val = 0 then 0x05 else if a.val = 2 then 0x02 else if a.val = 3 then 0x34 else 0

/-- A machine about to execute that instruction, with 7 on its way to `r2`. -/
def loadThenOri : Machine where
  registers := fun j =>
    if j = nextPCReg then 4 else if j = loadReg then 2 else if j = loadValueReg then 7 else 0
  memory :=
    { mainMemory := oriBytes
      tlb := none
      pageTables := fun _ _ => ⟨0, 0, true, false, false, false⟩
      currentPageTable := some 0
      currentPageTableSize := 1 }

/-- What a register holds after a routine that returns. -/
def registerAfter (x : Sim Unit) (m : Machine) (j : Reg) : Option Word :=
  match x m with
  | .ok _ m' => some (m'.registers j)
  | .error _ _ => none

/-- The machine that a routine leaves. -/
def machineAfter (x : Sim Unit) (m : Machine) : Machine :=
  match x m with
  | .ok _ m' => m'
  | .error _ m' => m'

theorem run_machineAfter {x : Sim Unit} {m : Machine} {j : Reg} {v : Word}
    (h : registerAfter x m j = some v) : x m = .ok () (machineAfter x m) := by
  unfold registerAfter at h
  unfold machineAfter
  cases hrun : x m with
  | ok a m' => rfl
  | error e m' =>
    rw [hrun] at h
    cases h

/-- `r2` ends as 7 without the interrupt and as 5 with it. -/
theorem early_load_visible :
    loadThenOri.registers loadReg = regNo 2 ∧ loadThenOri.registers 0 = 0 ∧
      fetched loadThenOri = some (decode 0x34020005) ∧ 2 ∉ (decode 0x34020005).sources ∧
      registerAfter uninterrupted loadThenOri 2 = some 7 ∧
      registerAfter interrupted loadThenOri 2 = some 5 ∧ ¬ Invisible loadThenOri := by
  have hfetch : fetched loadThenOri = some (decode 0x34020005) := by decide +kernel
  have hu : registerAfter uninterrupted loadThenOri 2 = some 7 := by decide +kernel
  have hi : registerAfter interrupted loadThenOri 2 = some 5 := by decide +kernel
  refine ⟨rfl, rfl, hfetch, by decide, hu, hi, fun hinv => ?_⟩
  unfold registerAfter at hu hi
  cases hrun : uninterrupted loadThenOri with
  | ok a m' =>
    rw [hinv m' hrun] at hi
    rw [hrun] at hu
    exact absurd (hu.symm.trans hi) (by decide)
  | error e m' =>
    rw [hrun] at hu
    cases hu

/-- The same instruction and a load into `r4`. -/
theorem interrupt_invisible_ori_r4 :
    (∀ v, Invisible (loadThenOri.pending 4 v)) ↔ (decode 0x34020005).dest ≠ some 4 := by
  have hr : registerAfter uninterrupted (loadThenOri.pending 4 7) 4 = some 7 := by
    decide +kernel
  have hrun : ∃ v m', uninterrupted (loadThenOri.pending 4 v) = .ok () m' := by
    unfold registerAfter at hr
    cases hx : uninterrupted (loadThenOri.pending 4 7) with
    | ok a m' => exact ⟨7, m', hx⟩
    | error e m' =>
      rw [hx] at hr
      cases hr
  have hfetch : fetched loadThenOri = some (decode 0x34020005) := by decide +kernel
  exact interrupt_invisible_iff rfl (by decide) hfetch (by decide) hrun

end Machine
end Nachos
