import Nachos.Machine.ByteMemory
import Nachos.Machine.Checks
import Nachos.Machine.Protection

/-!
# The placement of pages

The frames in which the pages of a program lie, the tables that lead to them and what
else there is in memory make no difference to the program.
-/

namespace Nachos
namespace Machine

open Lib

/-! ## The same pages in other frames -/

/-- Some page is in the frame. -/
def Memory.InFrame (m : Memory) (f : Nat) : Prop :=
  f < numPhysPages ∧ ∃ vpn slot e, m.Holds vpn slot e ∧ e.physicalPage.toNat = f

/-- The entries lead to the frame `f` and to `π f`, or both out of memory. -/
structure Moved (π : Nat → Nat) (e e' : TranslationEntry) : Prop where
  readOnly : e'.readOnly = e.readOnly
  inMemory : e'.physicalPage.toNat < numPhysPages ↔ e.physicalPage.toNat < numPhysPages
  frame : e.physicalPage.toNat < numPhysPages → e'.physicalPage.toNat = π e.physicalPage.toNat

/-- The same pages with the same bytes, those of the frame `f` in the frame `π f`. -/
structure Placed (π : Nat → Nat) (m n : Memory) : Prop where
  oneTable : m.OneTable ∧ n.OneTable
  absence : ∀ vpn, n.absence vpn = m.absence vpn
  moved : ∀ vpn slot e, m.Holds vpn slot e → ∃ slot' e', n.Holds vpn slot' e' ∧ Moved π e e'
  present : ∀ vpn slot' e', n.Holds vpn slot' e' → ∃ slot e, m.Holds vpn slot e
  distinct : ∀ f g, m.InFrame f → m.InFrame g → π f = π g → f = g
  bytes : ∀ f, m.InFrame f → ∀ k, k < pageSize →
    n.physical (π f * pageSize + k) = m.physical (f * pageSize + k)

variable {π : Nat → Nat} {m m' n n' : Memory} {vpn : Nat} {slot : Slot} {e : TranslationEntry}

/-! ## Touching entries -/

theorem holds_sameTables (hm : SameTables m m') (h : m.Holds vpn slot e) :
    ∃ e', m'.Holds vpn slot e' ∧ e'.mapping = e.mapping := by
  obtain ⟨hlookup, hentry⟩ := h.lookup
  obtain ⟨e', h'⟩ := holds_of_lookup ((hm.lookup vpn).trans hlookup)
  have hmapping := hm.mapping slot
  unfold Memory.mapping at hmapping
  rw [h'.lookup.2, hentry] at hmapping
  exact ⟨e', h', Option.some.inj hmapping⟩

theorem inFrame_sameTables (hm : SameTables m m') {f : Nat} : m'.InFrame f ↔ m.InFrame f := by
  have hone : ∀ {a b : Memory}, SameTables a b → a.InFrame f → b.InFrame f := by
    rintro a b hab ⟨hf, vpn, slot, e, he, hframe⟩
    obtain ⟨e', he', hmapping⟩ := holds_sameTables hab he
    exact ⟨hf, vpn, slot, e', he', (congrArg (·.physicalPage.toNat) hmapping).trans hframe⟩
  exact ⟨hone hm.symm, hone hm⟩

theorem absence_sameTables (hm : SameTables m m') (vpn : Nat) : m'.absence vpn = m.absence vpn := by
  unfold Memory.absence
  rw [hm.isNone, hm.currentPageTableSize]

theorem Moved.of_mapping {e₁ e₁' e₂ e₂' : TranslationEntry} (h : Moved π e₁ e₁')
    (h₂ : e₂.mapping = e₁.mapping) (h₂' : e₂'.mapping = e₁'.mapping) : Moved π e₂ e₂' := by
  have hframe : e₂.physicalPage = e₁.physicalPage := congrArg Mapping.physicalPage h₂
  have hframe' : e₂'.physicalPage = e₁'.physicalPage := congrArg Mapping.physicalPage h₂'
  have hreadOnly : e₂.readOnly = e₁.readOnly := congrArg Mapping.readOnly h₂
  have hreadOnly' : e₂'.readOnly = e₁'.readOnly := congrArg Mapping.readOnly h₂'
  refine ⟨?_, ?_, ?_⟩
  · rw [hreadOnly, hreadOnly', h.readOnly]
  · rw [hframe, hframe', h.inMemory]
  · rw [hframe, hframe']
    exact h.frame

/-- Other bytes, and other use and dirty bits. -/
theorem Placed.update (h : Placed π m n) (hm : SameTables m m') (hn : SameTables n n')
    (hbytes : ∀ f, m.InFrame f → ∀ k, k < pageSize →
      n'.physical (π f * pageSize + k) = m'.physical (f * pageSize + k)) : Placed π m' n' := by
  refine ⟨⟨hm.oneTable.mpr h.oneTable.1, hn.oneTable.mpr h.oneTable.2⟩, fun vpn => ?_,
    fun vpn slot e he => ?_, fun vpn slot' e' he => ?_, fun f g hf hg => ?_, fun f hf => ?_⟩
  · rw [absence_sameTables hm, absence_sameTables hn, h.absence]
  · obtain ⟨e₀, he₀, hmapping⟩ := holds_sameTables hm.symm he
    obtain ⟨slot', e', he', hmoved⟩ := h.moved vpn slot e₀ he₀
    obtain ⟨e₁, he₁, hmapping'⟩ := holds_sameTables hn he'
    exact ⟨slot', e₁, he₁, hmoved.of_mapping hmapping.symm hmapping'⟩
  · obtain ⟨e₀, he₀, _⟩ := holds_sameTables hn.symm he
    obtain ⟨slot, e, he⟩ := h.present vpn slot' e₀ he₀
    obtain ⟨e₁, he₁, _⟩ := holds_sameTables hm he
    exact ⟨slot, e₁, he₁⟩
  · exact h.distinct f g ((inFrame_sameTables hm).mp hf) ((inFrame_sameTables hm).mp hg)
  · exact hbytes f ((inFrame_sameTables hm).mp hf)

/-- Other bytes in frames without a page. -/
theorem Placed.sameBytes (h : Placed π m n) (hm : SameTables m m')
    (hbytes : ∀ a : Fin memorySize, m.InFrame (a.val / pageSize) →
      m'.mainMemory a = m.mainMemory a) : Placed π m' n := by
  refine h.update hm (.refl n) fun f hf j hj => ?_
  rw [h.bytes f hf j hj]
  unfold Memory.physical
  by_cases hin : f * pageSize + j < memorySize
  · have hj' : j < 128 := hj
    have hdiv : (f * pageSize + j) / pageSize = f := by
      show (f * 128 + j) / 128 = f
      omega
    have hframe : m.InFrame ((f * pageSize + j) / pageSize) := by rwa [hdiv]
    rw [dif_pos hin, dif_pos hin]
    exact (hbytes ⟨_, hin⟩ hframe).symm
  · rw [dif_neg hin, dif_neg hin]

/-- Memory with other entries in a table. -/
def Memory.setTable (m : Memory) (table : TableId) (entries : Nat → TranslationEntry) : Memory :=
  { m with pageTables := Function.update m.pageTables table entries }

/-- A table that is not current holds nothing. -/
theorem holds_setTable {table : TableId} {entries : Nat → TranslationEntry}
    (hne : m.currentPageTable ≠ some table) :
    (m.setTable table entries).Holds vpn slot e ↔ m.Holds vpn slot e := by
  have hother : ∀ {t : TableId}, m.currentPageTable = some t →
      (m.setTable table entries).pageTables t = m.pageTables t := by
    intro t ht
    refine Function.update_of_ne ?_ _ _
    rintro rfl
    exact hne ht
  constructor
  · intro h
    cases h with
    | page noTLB current inTable valid =>
      rw [hother current] at valid ⊢
      exact .page noTLB current inTable valid
    | tlb hasTLB valid number first => exact .tlb hasTLB valid number first
  · intro h
    cases h with
    | page noTLB current inTable valid =>
      rw [← hother current] at valid ⊢
      exact .page noTLB current inTable valid
    | tlb hasTLB valid number first => exact .tlb hasTLB valid number first

theorem inFrame_setTable {table : TableId} {entries : Nat → TranslationEntry}
    (hne : m.currentPageTable ≠ some table) {f : Nat} :
    (m.setTable table entries).InFrame f ↔ m.InFrame f := by
  unfold Memory.InFrame
  simp only [holds_setTable hne]

theorem Placed.setTable (h : Placed π m n) {table : TableId}
    (hne : m.currentPageTable ≠ some table) (entries : Nat → TranslationEntry) :
    Placed π (m.setTable table entries) n where
  oneTable := h.oneTable
  absence := h.absence
  moved := fun vpn slot e he => h.moved vpn slot e ((holds_setTable hne).mp he)
  present := fun vpn slot' e' he => by
    obtain ⟨slot, e, he'⟩ := h.present vpn slot' e' he
    exact ⟨slot, e, (holds_setTable hne).mpr he'⟩
  distinct := fun f g hf hg =>
    h.distinct f g ((inFrame_setTable hne).mp hf) ((inFrame_setTable hne).mp hg)
  bytes := fun f hf => h.bytes f ((inFrame_setTable hne).mp hf)

theorem Placed.refl (hone : m.OneTable) : Placed id m m :=
  ⟨⟨hone, hone⟩, fun _ => rfl, fun _ slot e he => ⟨slot, e, he, rfl, .rfl, fun _ => rfl⟩,
    fun _ slot e he => ⟨slot, e, he⟩, fun _ _ _ _ h => h, fun _ _ _ _ => rfl⟩

/-! ## Translation -/

theorem Placed.refuses (h : Placed π m n) {addr : Word} {size : Nat} {writing : Bool}
    {x : ExceptionType} (hx : m.Refuses addr size writing x) : n.Refuses addr size writing x := by
  cases hx with
  | alignment hno => exact .alignment hno
  | presence aligned hno =>
    rw [← h.absence]
    refine .presence aligned fun slot' e' he' => ?_
    obtain ⟨slot, e, he⟩ := h.present _ slot' e' he'
    exact hno slot e he
  | readOnly aligned present hreadOnly writes =>
    obtain ⟨slot', e', he', hmoved⟩ := h.moved _ _ _ present
    exact .readOnly aligned he' (hmoved.readOnly.trans hreadOnly) writes
  | bus aligned present writable hframe =>
    obtain ⟨slot', e', he', hmoved⟩ := h.moved _ _ _ present
    refine .bus aligned he' (fun hw => hmoved.readOnly.trans (writable hw)) ?_
    exact Nat.not_lt.mp fun hlt => Nat.not_lt.mpr hframe (hmoved.inMemory.mp hlt)

/-- Both translations raise the same exception, or lead to the same place in a frame. -/
theorem Placed.translate (h : Placed π m n) (addr : Word) {size : Nat} (writing : Bool)
    (hsize : size = 1 ∨ size = 2 ∨ size = 4) :
    (∃ x, translate addr size writing m = .ok (.error x) m ∧
      translate addr size writing n = .ok (.error x) n) ∨
    ∃ f offset slot slot', m.InFrame f ∧ offset + size ≤ pageSize ∧
      f * pageSize + offset + size ≤ memorySize ∧ π f * pageSize + offset + size ≤ memorySize ∧
      translate addr size writing m = .ok (.ok (f * pageSize + offset)) (m.touch slot writing) ∧
      translate addr size writing n =
        .ok (.ok (π f * pageSize + offset)) (n.touch slot' writing) := by
  obtain ⟨hone, hone'⟩ := h.oneTable
  rcases allows_or_refuses m addr size writing with ⟨slot, e, hallows⟩ | ⟨x, hx⟩
  · obtain ⟨slot', e', he', hmoved⟩ := h.moved _ _ _ hallows.present
    have hallows' : n.Allows addr size writing slot' e' :=
      ⟨hallows.aligned, he', fun hw => hmoved.readOnly.trans (hallows.writable hw),
        hmoved.inMemory.mpr hallows.inMemory⟩
    obtain ⟨hin, hrun⟩ := hallows.translate hone hsize
    obtain ⟨hin', hrun'⟩ := hallows'.translate hone' hsize
    rw [hmoved.frame hallows.inMemory] at hin' hrun'
    have hpage := aligned_inPage hsize
      ((misaligned_iff hsize).not.mpr (not_not.mpr hallows.aligned))
    exact .inr ⟨_, _, slot, slot', ⟨hallows.inMemory, _, slot, e, hallows.present, rfl⟩, hpage,
      hin, hin', hrun, hrun'⟩
  · exact .inl ⟨x, hx.translate hone hsize, (h.refuses hx).translate hone' hsize⟩

/-! ## Reading and writing -/

theorem Placed.touch (h : Placed π m n) (slot slot' : Slot) (writing : Bool) :
    Placed π (m.touch slot writing) (n.touch slot' writing) := by
  refine h.update (m.touch_sameTables slot writing) (n.touch_sameTables slot' writing)
    fun f hf k hk => ?_
  rw [physical_congr (m.touch_mainMemory slot writing),
    physical_congr (n.touch_mainMemory slot' writing)]
  exact h.bytes f hf k hk

theorem write_sameTables (m : Memory) (pa : Nat) (value : Word) (size : Nat) :
    SameTables m (m.write pa value size) :=
  ⟨rfl, fun _ _ => rfl, rfl, rfl⟩

/-- Bytes are written at the same place of a frame. -/
theorem Placed.write (h : Placed π m n) {f offset size : Nat} (hf : m.InFrame f)
    (hpage : offset + size ≤ pageSize) (hin : f * pageSize + offset + size ≤ memorySize)
    (hin' : π f * pageSize + offset + size ≤ memorySize) (value : Word) :
    Placed π (m.write (f * pageSize + offset) value size)
      (n.write (π f * pageSize + offset) value size) := by
  refine h.update (write_sameTables _ _ _ _) (write_sameTables _ _ _ _) fun g hg k hk => ?_
  rw [physical_write n value hin', physical_write m value hin]
  have hpage' : offset + size ≤ 128 := hpage
  have hk' : k < 128 := hk
  by_cases hgf : g = f
  · subst hgf
    by_cases hwritten : offset ≤ k ∧ k < offset + size
    · rw [if_pos (by omega), if_pos (by omega), Nat.add_sub_add_left, Nat.add_sub_add_left]
    · rw [if_neg (by omega), if_neg (by omega)]
      exact h.bytes g hg k hk
  · -- The frames of different pages do not overlap on either machine.
    have hother : ∀ a b : Nat, a ≠ b → ¬ (a * pageSize + offset ≤ b * pageSize + k ∧
        b * pageSize + k < a * pageSize + offset + size) := by
      intro a b hab
      show ¬ (a * 128 + offset ≤ b * 128 + k ∧ b * 128 + k < a * 128 + offset + size)
      omega
    rw [if_neg (hother _ _ fun heq => hgf (h.distinct g f hg hf heq.symm)),
      if_neg (hother _ _ (Ne.symm hgf))]
    exact h.bytes g hg k hk

/-! ## One instruction -/

/-- The same registers and the same pages. -/
structure SameProgram (π : Nat → Nat) (m n : Machine) : Prop where
  registers : n.registers = m.registers
  memory : Placed π m.memory n.memory

theorem placed_registers : SharesRegisters (SameProgram π) where
  reg := fun j _ _ h => ⟨congrFun h.registers.symm j, h⟩
  setReg := by
    intro j v m n h
    refine ⟨rfl, ?_, h.memory⟩
    show (fun i => if i = j then v else n.registers i) = fun i => if i = j then v else m.registers i
    rw [h.registers]

theorem readMem_refused {m : Machine} {addr : Word} {size : Nat} {x : ExceptionType}
    (hrun : translate addr size false m.memory = .ok (.error x) m.memory) :
    readMem addr size m = raiseException x addr m := by
  unfold readMem
  rw [bind_run (show onMemory (translate addr size false) m = .ok (.error x) m by
    unfold onMemory; rw [hrun])]

theorem writeMem_refused {m : Machine} {addr : Word} {size : Nat} {value : Word}
    {x : ExceptionType} (hrun : translate addr size true m.memory = .ok (.error x) m.memory) :
    writeMem addr size value m = raiseException x addr m := by
  unfold writeMem
  rw [bind_run (show onMemory (translate addr size true) m = .ok (.error x) m by
    unfold onMemory; rw [hrun])]

theorem placed_readMem (addr : Word) (size : Nat) (hsize : size = 1 ∨ size = 2 ∨ size = 4) :
    Lockstep (SameProgram π) (readMem addr size) := by
  intro m n h
  rcases h.memory.translate addr false hsize with
    ⟨x, hm, hn⟩ | ⟨f, offset, slot, slot', hf, hpage, hin, hin', hm, hn⟩
  · rw [readMem_refused hm, readMem_refused hn]
    exact placed_registers.raiseException x addr m n h
  · have htouched := h.memory.touch slot slot' false
    rw [readMem_translated hm, readMem_translated hn]
    unfold onMemory
    dsimp only
    rw [fetch_width _ hsize hin, fetch_width _ hsize hin']
    refine ⟨WordBytes.extended_congr (fun k hk => congrArg UInt8.toBitVec ?_) _, h.registers,
      htouched⟩
    rw [Nat.add_assoc, Nat.add_assoc]
    refine (htouched.bytes f ((inFrame_sameTables ?_).mpr hf) _ (by omega)).symm
    exact m.memory.touch_sameTables slot false

theorem placed_writeMem (addr : Word) (size : Nat) (value : Word)
    (hsize : size = 1 ∨ size = 2 ∨ size = 4) :
    Lockstep (SameProgram π) (writeMem addr size value) := by
  intro m n h
  rcases h.memory.translate addr true hsize with
    ⟨x, hm, hn⟩ | ⟨f, offset, slot, slot', hf, hpage, hin, hin', hm, hn⟩
  · rw [writeMem_refused hm, writeMem_refused hn]
    exact placed_registers.raiseException x addr m n h
  · have hstore : ∀ (s : Memory) (pa : Nat), pa + size ≤ memorySize →
        store pa size value s = .ok () (s.write pa value size) := fun s pa hpa =>
      (congrFun (if_pos hsize) _).trans (storeBytes_run s value hpa)
    rw [writeMem_translated value hm, writeMem_translated value hn]
    unfold onMemory
    dsimp only
    rw [hstore _ _ hin, hstore _ _ hin']
    refine ⟨rfl, h.registers, (h.memory.touch slot slot' true).write ?_ hpage hin hin' value⟩
    exact (inFrame_sameTables (m.memory.touch_sameTables slot true)).mpr hf

theorem placed_respected : Respected (SameProgram π) where
  toSharesRegisters := placed_registers
  readMem := placed_readMem
  writeMem := placed_writeMem

/-! ## Whole runs -/

/-- **The placement of pages.**  A program whose pages lie in other frames, behind other
tables and among other bytes, has the same runs: what happens in one machine can happen
in the other, and afterwards the registers and the bytes of all pages are the same. -/
theorem placement_unseen {m n : Machine} (h : SameProgram π m n) (events : List Event) :
    (∀ m', Traced m events m' → ∃ n', Traced n events n' ∧ SameProgram π m' n') ∧
      ∀ n', Traced n events n' → ∃ m', Traced m events m' ∧ SameProgram π m' n' := by
  have hone : Lockstep (SameProgram π) oneInstruction := placed_respected.oneInstruction
  exact ⟨fun m' hm => traced_lockstep hone (fun _ _ _ h => ⟨rfl, h.memory⟩) h hm,
    fun n' hn => traced_lockstep hone.flip (fun _ _ _ h => ⟨rfl, h.memory⟩) h hn⟩

/-- The page of `storeFive` in frame 5, behind another table. -/
def storeFiveElsewhere : Machine where
  registers := storeFive.registers
  memory :=
    { mainMemory := fun a =>
        if a.val / pageSize = 5 then storeFive.memory.physical (a.val % pageSize) else 255
      tlb := none
      pageTables := fun _ _ => ⟨9, 5, true, false, true, true⟩
      currentPageTable := some 3
      currentPageTableSize := 1 }

theorem onePage_holds {m : Memory} {table : TableId} (htlb : m.tlb = none)
    (htable : m.currentPageTable = some table) (hsize : m.currentPageTableSize = 1)
    {vpn : Nat} {slot : Slot} {e : TranslationEntry} (h : m.Holds vpn slot e) :
    vpn = 0 ∧ e = m.pageTables table 0 := by
  cases h with
  | page _ current inTable _ =>
    obtain rfl := Option.some.inj (htable.symm.trans current)
    obtain rfl : vpn = 0 := by omega
    exact ⟨rfl, rfl⟩
  | tlb hasTLB => exact absurd (htlb.symm.trans hasTLB) nofun

theorem storeFive_elsewhere : SameProgram (fun _ => 5) storeFive storeFiveElsewhere := by
  have hm : ∀ vpn slot e, storeFive.memory.Holds vpn slot e →
      vpn = 0 ∧ e = storeFive.memory.pageTables 0 0 := fun _ _ _ => onePage_holds rfl rfl rfl
  have hn : ∀ vpn slot e, storeFiveElsewhere.memory.Holds vpn slot e →
      vpn = 0 ∧ e = storeFiveElsewhere.memory.pageTables 3 0 :=
    fun _ _ _ => onePage_holds rfl rfl rfl
  have hframe : ∀ f, storeFive.memory.InFrame f → f = 0 := by
    rintro f ⟨_, vpn, slot, e, he, hf⟩
    rw [← hf, (hm vpn slot e he).2]
    rfl
  refine ⟨rfl, ⟨⟨rfl, rfl⟩, fun _ => rfl, fun vpn slot e he => ?_, fun vpn slot e he => ?_,
    fun f g hf hg _ => (hframe f hf).trans (hframe g hg).symm, fun f hf k hk => ?_⟩⟩
  · obtain ⟨rfl, rfl⟩ := hm vpn slot e he
    exact ⟨_, _, .page rfl rfl (by decide) rfl, rfl, by decide, fun _ => rfl⟩
  · obtain ⟨rfl, rfl⟩ := hn vpn slot e he
    exact ⟨_, _, .page rfl rfl (by decide) rfl⟩
  · obtain rfl := hframe f hf
    have hk' : k < 128 := hk
    have hin : 5 * pageSize + k < memorySize := by
      show 5 * 128 + k < 64 * 128
      omega
    have hdiv : (5 * pageSize + k) / pageSize = 5 := by
      show (5 * 128 + k) / 128 = 5
      omega
    have hmod : (5 * pageSize + k) % pageSize = 0 * pageSize + k := by
      show (5 * 128 + k) % 128 = 0 * 128 + k
      omega
    unfold Memory.physical
    rw [dif_pos hin]
    show (if (5 * pageSize + k) / pageSize = 5 then
      storeFive.memory.physical ((5 * pageSize + k) % pageSize) else 255) = _
    rw [if_pos hdiv, hmod]
    rfl

/-- The store is to address 8 of the page, wherever that is. -/
theorem placement_unseen_storeFive :
    ∃ n', Traced storeFiveElsewhere [.executed] n' ∧
      n'.memory.physical (5 * pageSize + 8) = 5 := by
  have hbyte : byteAfter storeFive 8 = some 5 := by decide +kernel
  unfold byteAfter at hbyte
  cases hrun : oneInstruction storeFive with
  | error e m' =>
    rw [hrun] at hbyte
    cases hbyte
  | ok a m' =>
    rw [hrun] at hbyte
    obtain ⟨n', hn', hsame⟩ := (placement_unseen storeFive_elsewhere [.executed]).1 m'
      (Traced.nil.snoc (.executed hrun))
    have htables := (confined_of_step (.executed hrun)).toSameTables
    have hpage : storeFive.memory.InFrame 0 :=
      ⟨by decide, 0, _, _, .page rfl rfl (by decide) rfl, rfl⟩
    have hbytes := hsame.memory.bytes 0 ((inFrame_sameTables htables).mpr hpage) 8 (by decide)
    exact ⟨n', hn', hbytes.trans (Option.some.inj hbyte)⟩

end Machine
end Nachos
