import Matryoshka.Isr
import Matryoshka.X86Desc

/-!
# Segments and gates

`kernel/arch/x86_64/gdt.c` and the table of `kernel/arch/x86_64/idt.c`, as
bytes in memory that the processor reads. `isr n` is the address of the
stub for vector `n`; of the six-byte operands of `lgdt` and `lidt` the
limits and bases are kept, and what `ltr` loads is read from the table.

The tables stand after `gdt_init` and `idt_init` and are not written
again, but for `esp0`. What they let through is stated for the processor:
an interrupt from anywhere ends in the kernel, on the stack in `esp0` if
it comes from a user task, and an `INT` of a user task reaches the system
calls or a protection fault (`interrupt_entries`). The frames that new
tasks start from are accepted, and a user task has no ports
(`task_frames_load`).
-/

namespace Matryoshka

open ByteMem X86

/-! ## `gdt.c` -/

def GDT_ENTRIES : Nat := 6

/-- `sizeof(tss_entry_t)`; `esp0`, `ss0` and `iomap_base` are at 4, 8 and 102. -/
def sizeofTss : Nat := 104

def gdtSetGate (m : Mem) (gdt num : Nat) (base limit : BitVec 32) (access gran : BitVec 8) : Mem :=
  let a := gdt + 8 * num
  let m := store16 m (a + 2) ((base &&& 0xFFFF#32).setWidth 16)
  let m := store8 m (a + 4) (((base >>> 16) &&& 0xFF#32).setWidth 8)
  let m := store8 m (a + 7) (((base >>> 24) &&& 0xFF#32).setWidth 8)
  let m := store16 m a ((limit &&& 0xFFFF#32).setWidth 16)
  let m := store8 m (a + 6)
    ((((limit >>> 16) &&& 0x0F#32) ||| (gran.setWidth 32 &&& 0xF0#32)).setWidth 8)
  store8 m (a + 5) access

def writeTss (m : Mem) (gdt tss num : Nat) : Mem :=
  let m := fillUp m tss 0#8 sizeofTss
  let m := store32 m (tss + 8) GDT_KERNEL_DATA_SEL
  let m := store32 m (tss + 4) 0#32
  let m := store16 m (tss + 102) (BitVec.ofNat 16 sizeofTss)
  gdtSetGate m gdt num (BitVec.ofNat 32 tss) (BitVec.ofNat 32 (sizeofTss - 1)) 0x89#8 0x00#8

/-- `gdt_init`, on the bytes. -/
def gdtInitMem (m : Mem) (gdt tss : Nat) : Mem :=
  let m := gdtSetGate m gdt 0 0#32 0#32 0#8 0#8
  let m := gdtSetGate m gdt 1 0#32 0xFFFFF#32 0x9A#8 0xCF#8
  let m := gdtSetGate m gdt 2 0#32 0xFFFFF#32 0x92#8 0xCF#8
  let m := gdtSetGate m gdt 3 0#32 0xFFFFF#32 0xFA#8 0xCF#8
  let m := gdtSetGate m gdt 4 0#32 0xFFFFF#32 0xF2#8 0xCF#8
  writeTss m gdt tss 5

/-- `tss_set_esp0`, on the bytes. -/
def tssStoreEsp0 (tss : Nat) (m : Mem) (esp0 : BitVec 32) : Mem := store32 m (tss + 4) esp0

/-! ## `idt.c` -/

def IDT_ENTRIES : Nat := 256

def IDT_FLAG_PRESENT : BitVec 8 := 0x80#8

def IDT_FLAG_DPL0 : BitVec 8 := 0x00#8

def IDT_FLAG_DPL3 : BitVec 8 := 0x60#8

def IDT_GATE_INT32 : BitVec 8 := 0x0E#8

/-- The stores to one entry. -/
def putGate (idt : Nat) (m : Mem) (num : Nat) (baseLow baseHigh selector : BitVec 16)
    (flags : BitVec 8) : Mem :=
  let a := idt + 8 * num
  let m := store16 m a baseLow
  let m := store16 m (a + 6) baseHigh
  let m := store16 m (a + 2) selector
  let m := store8 m (a + 4) 0#8
  store8 m (a + 5) flags

def idtSetGate (idt : Nat) (m : Mem) (num : Nat) (base : BitVec 32) (selector : BitVec 16)
    (flags : BitVec 8) : Mem :=
  putGate idt m num ((base &&& 0xFFFF#32).setWidth 16) (((base >>> 16) &&& 0xFFFF#32).setWidth 16)
    selector (flags ||| IDT_FLAG_PRESENT)

/-- The body of the loop that clears the table. -/
def clearGate (idt : Nat) (m : Mem) (num : Nat) : Mem := putGate idt m num 0#16 0#16 0#16 0#8

/-- The gates that `idt_init` installs, in its order: the exceptions and requests, the system
calls and the yield. -/
def installGates (idt : Nat) (isr : Nat → BitVec 32) (m : Mem) : Mem :=
  let m := (List.range 48).foldl
    (fun m n => idtSetGate idt m n (isr n) 0x08#16 (IDT_FLAG_DPL0 ||| IDT_GATE_INT32)) m
  let m := idtSetGate idt m 128 (isr 128) 0x08#16 (IDT_FLAG_DPL3 ||| IDT_GATE_INT32)
  idtSetGate idt m 129 (isr 129) 0x08#16 (IDT_FLAG_DPL0 ||| IDT_GATE_INT32)

def idtInit (m : Mem) (idt : Nat) (isr : Nat → BitVec 32) : Mem :=
  installGates idt isr ((List.range IDT_ENTRIES).foldl (clearGate idt) m)

/-- What the processor has loaded. -/
def loaded (m : Mem) (gdt idt : Nat) : Tables where
  mem := m
  gdt := gdt
  gdtLimit := 8 * GDT_ENTRIES - 1
  idt := idt
  idtLimit := 8 * IDT_ENTRIES - 1
  tss := (segAt m (gdt + 8 * 5)).base.toNat
  tssLimit := (segAt m (gdt + 8 * 5)).lastByte

/-! ## Descriptors in memory -/

section Layout

variable {m : Mem} {gdt idt : Nat}

theorem gdtSetGate_of_outside {num : Nat} {base limit : BitVec 32} {access gran : BitVec 8}
    {x : Nat} (hx : x < gdt + 8 * num ∨ gdt + 8 * num + 8 ≤ x) :
    gdtSetGate m gdt num base limit access gran x = m x := by
  rw [gdtSetGate, store8_of_ne (by omega), store8_of_ne (by omega),
    store16_of_outside (by omega), store8_of_ne (by omega), store8_of_ne (by omega),
    store16_of_outside (by omega)]

theorem putGate_of_outside {num : Nat} {low high selector : BitVec 16} {flags : BitVec 8} {x : Nat}
    (hx : x < idt + 8 * num ∨ idt + 8 * num + 8 ≤ x) :
    putGate idt m num low high selector flags x = m x := by
  rw [putGate, store8_of_ne (by omega), store8_of_ne (by omega), store16_of_outside (by omega),
    store16_of_outside (by omega), store16_of_outside (by omega)]

/-- The bytes of a base address put together again. -/
theorem base_bytes (base : BitVec 32) :
    ((base >>> 24) &&& 0xFF#32).setWidth 8 ++ ((base >>> 16) &&& 0xFF#32).setWidth 8
      ++ (base &&& 0xFFFF#32).setWidth 16 = base := by
  have hword : ∀ j < 16, (0xFFFF#32).getLsbD j = true := by decide
  have hbyte : ∀ j < 8, (0xFF#32).getLsbD j = true := by decide
  apply BitVec.eq_of_getLsbD_eq
  intro i hi
  simp only [BitVec.getLsbD_append, BitVec.getLsbD_setWidth, BitVec.getLsbD_and,
    BitVec.getLsbD_ushiftRight]
  by_cases h : i < 16
  · simp [h, hword i h]
  · by_cases h' : i < 24
    · simp [h, hbyte (i - 16) (by omega), show i - 16 < 8 by omega,
        show 16 + (i - 16) = i by omega]
    · simp [h, show ¬i - 16 < 8 by omega, hbyte (i - 16 - 8) (by omega),
        show i - 16 - 8 < 8 by omega, show 24 + (i - 16 - 8) = i by omega]

theorem offset_halves (base : BitVec 32) :
    ((base >>> 16) &&& 0xFFFF#32).setWidth 16 ++ (base &&& 0xFFFF#32).setWidth 16 = base := by
  have hword : ∀ j < 16, (0xFFFF#32).getLsbD j = true := by decide
  apply BitVec.eq_of_getLsbD_eq
  intro i hi
  simp only [BitVec.getLsbD_append, BitVec.getLsbD_setWidth, BitVec.getLsbD_and,
    BitVec.getLsbD_ushiftRight]
  by_cases h : i < 16
  · simp [h, hword i h]
  · simp [h, hword (i - 16) (by omega), show i - 16 < 16 by omega,
      show 16 + (i - 16) = i by omega]

/-- The low byte of the limit's upper part, and the flags next to it. -/
theorem granularity_bits (limit : BitVec 32) (gran : BitVec 8) :
    ((((limit >>> 16) &&& 0x0F#32) ||| (gran.setWidth 32 &&& 0xF0#32)).setWidth 8)
      = gran.extractLsb' 4 4 ++ limit.extractLsb' 16 4 := by
  have hlow : ∀ j < 8, (0x0F#32).getLsbD j = decide (j < 4) := by decide
  have hhigh : ∀ j < 8, (0xF0#32).getLsbD j = !decide (j < 4) := by decide
  apply BitVec.eq_of_getLsbD_eq
  intro i hi
  simp only [BitVec.getLsbD_append, BitVec.getLsbD_setWidth, BitVec.getLsbD_or, BitVec.getLsbD_and,
    BitVec.getLsbD_ushiftRight, BitVec.getLsbD_extractLsb', hlow i hi, hhigh i hi]
  by_cases h : i < 4
  · simp [h, hi]
  · simp [h, hi, show i < 32 by omega, show i - 4 < 4 by omega, show 4 + (i - 4) = i by omega]

theorem append_low (x y : BitVec 4) : (x ++ y).extractLsb' 0 4 = y := by
  revert x y
  decide

theorem append_high (x y : BitVec 4) : (x ++ y).extractLsb' 4 4 = x := by
  revert x y
  decide

/-- **The table holds what was put into it.** -/
theorem segAt_gdtSetGate (m : Mem) (gdt num k : Nat) (base limit : BitVec 32)
    (access gran : BitVec 8) :
    segAt (gdtSetGate m gdt num base limit access gran) (gdt + 8 * k)
      = if k = num then ⟨base, limit.extractLsb' 16 4 ++ (limit &&& 0xFFFF#32).setWidth 16, access,
          gran.extractLsb' 4 4⟩
        else segAt m (gdt + 8 * k) := by
  by_cases h : k = num
  · subst h
    rw [if_pos rfl]
    have h4 : gdtSetGate m gdt k base limit access gran (gdt + 8 * k + 4)
        = ((base >>> 16) &&& 0xFF#32).setWidth 8 := by
      rw [gdtSetGate, store8_of_ne (by omega), store8_of_ne (by omega),
        store16_of_outside (by omega), store8_of_ne (by omega), store8_self]
    have h5 : gdtSetGate m gdt k base limit access gran (gdt + 8 * k + 5) = access := by
      rw [gdtSetGate, store8_self]
    have h6 : gdtSetGate m gdt k base limit access gran (gdt + 8 * k + 6)
        = gran.extractLsb' 4 4 ++ limit.extractLsb' 16 4 := by
      rw [gdtSetGate, store8_of_ne (by omega), store8_self, granularity_bits]
    have h7 : gdtSetGate m gdt k base limit access gran (gdt + 8 * k + 7)
        = ((base >>> 24) &&& 0xFF#32).setWidth 8 := by
      rw [gdtSetGate, store8_of_ne (by omega), store8_of_ne (by omega),
        store16_of_outside (by omega), store8_self]
    have hlimit : load16 (gdtSetGate m gdt k base limit access gran) (gdt + 8 * k)
        = (limit &&& 0xFFFF#32).setWidth 16 := by
      rw [gdtSetGate, load16_store8_of_outside (by omega), load16_store8_of_outside (by omega),
        load16_store16_self]
    have hbase : load16 (gdtSetGate m gdt k base limit access gran) (gdt + 8 * k + 2)
        = (base &&& 0xFFFF#32).setWidth 16 := by
      rw [gdtSetGate, load16_store8_of_outside (by omega), load16_store8_of_outside (by omega),
        load16_store16_of_disjoint (by omega), load16_store8_of_outside (by omega),
        load16_store8_of_outside (by omega), load16_store16_self]
    rw [segAt, h4, h5, h6, h7, hlimit, hbase, base_bytes, append_low, append_high]
  · rw [if_neg h]
    exact segAt_congr fun j hj => gdtSetGate_of_outside (by omega)

theorem gateAt_putGate (m : Mem) (idt num n : Nat) (low high selector : BitVec 16)
    (flags : BitVec 8) :
    gateAt (putGate idt m num low high selector flags) (idt + 8 * n)
      = if n = num then ⟨high ++ low, selector, flags⟩ else gateAt m (idt + 8 * n) := by
  by_cases h : n = num
  · subst h
    rw [if_pos rfl]
    have h5 : putGate idt m n low high selector flags (idt + 8 * n + 5) = flags := by
      rw [putGate, store8_self]
    have hlow : load16 (putGate idt m n low high selector flags) (idt + 8 * n) = low := by
      rw [putGate, load16_store8_of_outside (by omega), load16_store8_of_outside (by omega),
        load16_store16_of_disjoint (by omega), load16_store16_of_disjoint (by omega),
        load16_store16_self]
    have hhigh : load16 (putGate idt m n low high selector flags) (idt + 8 * n + 6) = high := by
      rw [putGate, load16_store8_of_outside (by omega), load16_store8_of_outside (by omega),
        load16_store16_of_disjoint (by omega), load16_store16_self]
    have hsel : load16 (putGate idt m n low high selector flags) (idt + 8 * n + 2) = selector := by
      rw [putGate, load16_store8_of_outside (by omega), load16_store8_of_outside (by omega),
        load16_store16_self]
    rw [gateAt, h5, hlow, hhigh, hsel]
  · rw [if_neg h]
    exact gateAt_congr fun j hj => putGate_of_outside (by omega)

theorem gateAt_idtSetGate (m : Mem) (idt num n : Nat) (base : BitVec 32) (selector : BitVec 16)
    (flags : BitVec 8) :
    gateAt (idtSetGate idt m num base selector flags) (idt + 8 * n)
      = if n = num then ⟨base, selector, flags ||| IDT_FLAG_PRESENT⟩
        else gateAt m (idt + 8 * n) := by
  rw [idtSetGate, gateAt_putGate, offset_halves]

end Layout

/-! ## After initialisation -/

/-- The statically allocated tables do not overlap. -/
structure TablesPlaced (gdt tss idt : Nat) : Prop where
  inSpace : tss + sizeofTss ≤ 2 ^ 32
  gdtTss : gdt + 48 ≤ tss ∨ tss + sizeofTss ≤ gdt
  gdtIdt : gdt + 48 ≤ idt ∨ idt + 2048 ≤ gdt
  tssIdt : tss + sizeofTss ≤ idt ∨ idt + 2048 ≤ tss

/-- What `idt_init` puts at vector `n`. -/
def idtGate (isr : Nat → BitVec 32) (n : Nat) : Gate :=
  if n = 128 then ⟨isr n, 0x08#16, 0xEE#8⟩
  else if n < 48 ∨ n = 129 then ⟨isr n, 0x08#16, 0x8E#8⟩
  else ⟨0#32, 0#16, 0#8⟩

/-- The tables as the kernel has set them up, but for `esp0`. -/
structure TablesOk (m : Mem) (gdt tss idt : Nat) (isr : Nat → BitVec 32) : Prop where
  kernelCode : segAt m (gdt + 8 * 1) = ⟨0#32, 0xFFFFF#20, 0x9A#8, 0xC#4⟩
  kernelData : segAt m (gdt + 8 * 2) = ⟨0#32, 0xFFFFF#20, 0x92#8, 0xC#4⟩
  userCode : segAt m (gdt + 8 * 3) = ⟨0#32, 0xFFFFF#20, 0xFA#8, 0xC#4⟩
  userData : segAt m (gdt + 8 * 4) = ⟨0#32, 0xFFFFF#20, 0xF2#8, 0xC#4⟩
  tssSeg : segAt m (gdt + 8 * 5) = ⟨BitVec.ofNat 32 tss, 103#20, 0x89#8, 0x0#4⟩
  ss0 : load16 m (tss + 8) = 0x10#16
  iomap : load16 m (tss + 102) = 104#16
  gates : ∀ n < 256, gateAt m (idt + 8 * n) = idtGate isr n

section Init

variable {m m' : Mem} {gdt tss idt : Nat} {isr : Nat → BitVec 32}

/-- The task state segment that `write_tss` fills in. -/
def tssFields (m : Mem) (tss : Nat) : Mem :=
  store16 (store32 (store32 (fillUp m tss 0#8 sizeofTss) (tss + 8) GDT_KERNEL_DATA_SEL) (tss + 4)
    0#32) (tss + 102) (BitVec.ofNat 16 sizeofTss)

theorem writeTss_eq (m : Mem) (gdt tss num : Nat) :
    writeTss m gdt tss num = gdtSetGate (tssFields m tss) gdt num (BitVec.ofNat 32 tss)
      (BitVec.ofNat 32 (sizeofTss - 1)) 0x89#8 0x00#8 := rfl

theorem tssFields_of_outside {x : Nat} (hx : x < tss ∨ tss + sizeofTss ≤ x) :
    tssFields m tss x = m x := by
  have hsize : sizeofTss = 104 := rfl
  rw [tssFields, store16_of_outside (by omega), store32_of_outside (by omega),
    store32_of_outside (by omega), fillUp_of_outside hx]

theorem segAt_tssFields (hp : TablesPlaced gdt tss idt) {k : Nat} (hk : k < 6) :
    segAt (tssFields m tss) (gdt + 8 * k) = segAt m (gdt + 8 * k) := by
  have hgap := hp.gdtTss
  refine segAt_congr fun j hj => tssFields_of_outside ?_
  omega

/-- The five segments below the task state segment. -/
theorem segAt_gdtInitMem (hp : TablesPlaced gdt tss idt) (m : Mem) {k : Nat} (hk : k < 5) :
    segAt (gdtInitMem m gdt tss) (gdt + 8 * k)
      = if k = 0 then ⟨0#32, 0#20, 0#8, 0#4⟩
        else ⟨0#32, 0xFFFFF#20,
          if k = 1 then 0x9A#8 else if k = 2 then 0x92#8 else if k = 3 then 0xFA#8 else 0xF2#8,
          0xC#4⟩ := by
  rw [gdtInitMem, writeTss_eq, segAt_gdtSetGate, if_neg (by omega), segAt_tssFields hp (by omega),
    segAt_gdtSetGate, segAt_gdtSetGate, segAt_gdtSetGate, segAt_gdtSetGate, segAt_gdtSetGate]
  obtain rfl | rfl | rfl | rfl | rfl : k = 0 ∨ k = 1 ∨ k = 2 ∨ k = 3 ∨ k = 4 := by omega
  all_goals rfl

theorem segAt_gdtInit_tss (m : Mem) (gdt tss : Nat) :
    segAt (gdtInitMem m gdt tss) (gdt + 8 * 5) = ⟨BitVec.ofNat 32 tss, 103#20, 0x89#8, 0x0#4⟩ := by
  rw [gdtInitMem, writeTss_eq, segAt_gdtSetGate, if_pos rfl]
  congr 1

theorem load16_gdtInitMem (hp : TablesPlaced gdt tss idt) (m : Mem) :
    load16 (gdtInitMem m gdt tss) (tss + 8) = 0x10#16
      ∧ load16 (gdtInitMem m gdt tss) (tss + 102) = 104#16 := by
  have hgap := hp.gdtTss
  have hsize : sizeofTss = 104 := rfl
  rw [gdtInitMem, writeTss_eq]
  generalize gdtSetGate _ gdt 4 _ _ _ _ = m₄
  have hframe : ∀ k < 104, gdtSetGate (tssFields m₄ tss) gdt 5 (BitVec.ofNat 32 tss)
      (BitVec.ofNat 32 (sizeofTss - 1)) 0x89#8 0x00#8 (tss + k) = tssFields m₄ tss (tss + k) :=
    fun k hk => gdtSetGate_of_outside (by omega)
  constructor
  · rw [load16_congr (hframe 8 (by decide)) (hframe 9 (by decide)), tssFields,
      load16_store16_of_disjoint (by omega), load16_store32_of_disjoint (by omega),
      load16_store32_self]
    rfl
  · rw [load16_congr (hframe 102 (by decide)) (hframe 103 (by decide)), tssFields,
      load16_store16_self]
    rfl

/-- A loop over the first entries leaves the others alone. -/
theorem gateAt_foldl (idt : Nat) (f : Mem → Nat → Mem) (g : Nat → Gate)
    (hf : ∀ m num n, gateAt (f m num) (idt + 8 * n)
      = if n = num then g num else gateAt m (idt + 8 * n)) (m : Mem) (k n : Nat) :
    gateAt ((List.range k).foldl f m) (idt + 8 * n)
      = if n < k then g n else gateAt m (idt + 8 * n) := by
  induction k with
  | zero => rw [if_neg (Nat.not_lt_zero n), List.range_zero, List.foldl_nil]
  | succ k ih =>
      rw [List.range_succ, List.foldl_append, List.foldl_cons, List.foldl_nil, hf, ih]
      by_cases hk : n = k
      · rw [if_pos hk, if_pos (by omega), hk]
      · rw [if_neg hk]
        exact if_congr (by omega) rfl rfl

theorem gateAt_idtInit (m : Mem) (idt : Nat) (isr : Nat → BitVec 32) {n : Nat} (hn : n < 256) :
    gateAt (idtInit m idt isr) (idt + 8 * n) = idtGate isr n := by
  have hsets := gateAt_foldl idt
    (fun m n => idtSetGate idt m n (isr n) 0x08#16 (IDT_FLAG_DPL0 ||| IDT_GATE_INT32))
    (fun n => ⟨isr n, 0x08#16, 0x8E#8⟩) (fun m num k => gateAt_idtSetGate m idt num k _ _ _)
  have hclears := gateAt_foldl idt (clearGate idt) (fun _ => ⟨0#32, 0#16, 0#8⟩)
    (fun m num k => gateAt_putGate m idt num k _ _ _ _)
  rw [idtInit, installGates]
  rw [gateAt_idtSetGate, gateAt_idtSetGate, hsets, hclears, if_pos (show n < IDT_ENTRIES from hn),
    idtGate]
  by_cases h128 : n = 128
  · subst h128
    rfl
  · by_cases h129 : n = 129
    · subst h129
      rfl
    · simp only [h128, h129, or_false, if_false]

/-- `idt_init` writes its table only. -/
theorem idtInit_of_outside {x : Nat} (hx : x < idt ∨ idt + 2048 ≤ x) :
    idtInit m idt isr x = m x := by
  have hfold : ∀ (f : Mem → Nat → Mem), (∀ m num y, num < 256 → (y < idt ∨ idt + 2048 ≤ y) →
      f m num y = m y) → ∀ (k : Nat) (m : Mem), k ≤ 256 → (List.range k).foldl f m x = m x := by
    intro f hf k m hk
    induction k with
    | zero => rfl
    | succ k ih =>
        rw [List.range_succ, List.foldl_append, List.foldl_cons, List.foldl_nil,
          hf _ k x (by omega) hx, ih (by omega)]
  have hput : ∀ (m : Mem) (num : Nat) (low high sel : BitVec 16) (flags : BitVec 8) (y : Nat),
      num < 256 → (y < idt ∨ idt + 2048 ≤ y) → putGate idt m num low high sel flags y = m y :=
    fun m num low high sel flags y hnum hy => putGate_of_outside (by omega)
  have hset : ∀ (m : Mem) (num : Nat) (base : BitVec 32) (sel : BitVec 16) (flags : BitVec 8)
      (y : Nat), num < 256 → (y < idt ∨ idt + 2048 ≤ y) →
      idtSetGate idt m num base sel flags y = m y :=
    fun m num base sel flags y hnum hy => hput m num _ _ sel _ y hnum hy
  have hclear : ∀ (m : Mem) (num y : Nat), num < 256 → (y < idt ∨ idt + 2048 ≤ y) →
      clearGate idt m num y = m y :=
    fun m num y hnum hy => hput m num _ _ _ _ y hnum hy
  rw [idtInit, installGates]
  rw [hset _ _ _ _ _ _ (by decide) hx, hset _ _ _ _ _ _ (by decide) hx,
    hfold _ (fun m num y hnum hy => hset m num _ _ _ y hnum hy) 48 _ (by decide),
    hfold _ hclear IDT_ENTRIES _ (by decide)]

/-- Only `esp0` may change. -/
theorem TablesOk.congr (h : TablesOk m gdt tss idt isr)
    (hgdt : ∀ k < 48, m' (gdt + k) = m (gdt + k))
    (hss : ∀ k < 2, m' (tss + 8 + k) = m (tss + 8 + k))
    (hmap : ∀ k < 2, m' (tss + 102 + k) = m (tss + 102 + k))
    (hidt : ∀ k < 2048, m' (idt + k) = m (idt + k)) : TablesOk m' gdt tss idt isr := by
  have hseg : ∀ k < 6, segAt m' (gdt + 8 * k) = segAt m (gdt + 8 * k) := fun k hk =>
    segAt_congr fun j hj => by
      rw [Nat.add_assoc]
      exact hgdt _ (by omega)
  have hgate : ∀ n < 256, gateAt m' (idt + 8 * n) = gateAt m (idt + 8 * n) := fun n hn =>
    gateAt_congr fun j hj => by
      rw [Nat.add_assoc]
      exact hidt _ (by omega)
  exact ⟨(hseg 1 (by decide)).trans h.kernelCode, (hseg 2 (by decide)).trans h.kernelData,
    (hseg 3 (by decide)).trans h.userCode, (hseg 4 (by decide)).trans h.userData,
    (hseg 5 (by decide)).trans h.tssSeg,
    (load16_congr (hss 0 (by decide)) (hss 1 (by decide))).trans h.ss0,
    (load16_congr (hmap 0 (by decide)) (hmap 1 (by decide))).trans h.iomap,
    fun n hn => (hgate n hn).trans (h.gates n hn)⟩

/-- `gdt_init` and then `idt_init`, on any memory. -/
theorem tables_init (hp : TablesPlaced gdt tss idt) (m : Mem) (isr : Nat → BitVec 32) :
    TablesOk (idtInit (gdtInitMem m gdt tss) idt isr) gdt tss idt isr := by
  have hsize : sizeofTss = 104 := rfl
  have hgi := hp.gdtIdt
  have hti := hp.tssIdt
  have hseg : ∀ k < 6, segAt (idtInit (gdtInitMem m gdt tss) idt isr) (gdt + 8 * k)
      = segAt (gdtInitMem m gdt tss) (gdt + 8 * k) := fun k hk =>
    segAt_congr fun j hj => idtInit_of_outside (by omega)
  have hhalf : ∀ k < 103, load16 (idtInit (gdtInitMem m gdt tss) idt isr) (tss + k)
      = load16 (gdtInitMem m gdt tss) (tss + k) := fun k hk =>
    load16_congr (idtInit_of_outside (by omega)) (idtInit_of_outside (by omega))
  obtain ⟨hss, hmap⟩ := load16_gdtInitMem hp m
  exact ⟨(hseg 1 (by decide)).trans (segAt_gdtInitMem hp m (by decide)),
    (hseg 2 (by decide)).trans (segAt_gdtInitMem hp m (by decide)),
    (hseg 3 (by decide)).trans (segAt_gdtInitMem hp m (by decide)),
    (hseg 4 (by decide)).trans (segAt_gdtInitMem hp m (by decide)),
    (hseg 5 (by decide)).trans (segAt_gdtInit_tss m gdt tss),
    (hhalf 8 (by decide)).trans hss, (hhalf 102 (by decide)).trans hmap,
    fun n hn => gateAt_idtInit _ idt isr hn⟩

theorem TablesOk.setEsp0 (hp : TablesPlaced gdt tss idt) (h : TablesOk m gdt tss idt isr)
    (esp0 : BitVec 32) : TablesOk (tssStoreEsp0 tss m esp0) gdt tss idt isr := by
  have hsize : sizeofTss = 104 := rfl
  have hgt := hp.gdtTss
  have hti := hp.tssIdt
  exact h.congr (fun k hk => store32_of_outside (by omega))
    (fun k hk => store32_of_outside (by omega)) (fun k hk => store32_of_outside (by omega))
    (fun k hk => store32_of_outside (by omega))

theorem TablesOk.setEsp0s (hp : TablesPlaced gdt tss idt) (esps : List (BitVec 32))
    (h : TablesOk m gdt tss idt isr) :
    TablesOk (esps.foldl (tssStoreEsp0 tss) m) gdt tss idt isr := by
  induction esps generalizing m with
  | nil => exact h
  | cons esp0 esps ih => exact ih (h.setEsp0 hp esp0)

end Init

/-! ## What the processor does with them -/

/-- The memory after the tables were set up and `esp0` was set some times. -/
def tablesMem (m : Mem) (gdt tss idt : Nat) (isr : Nat → BitVec 32)
    (esps : List (BitVec 32)) : Mem :=
  esps.foldl (tssStoreEsp0 tss) (idtInit (gdtInitMem m gdt tss) idt isr)

section Processor

variable {m : Mem} {gdt tss idt : Nat} {isr : Nat → BitVec 32}

theorem loaded_tss (hp : TablesPlaced gdt tss idt) (h : TablesOk m gdt tss idt isr) :
    (loaded m gdt idt).tss = tss ∧ (loaded m gdt idt).tssLimit = 103 := by
  have hsize : sizeofTss = 104 := rfl
  have hlt := hp.inSpace
  constructor
  · rw [loaded, h.tssSeg]
    exact Nat.mod_eq_of_lt (by omega)
  · have hlast : (segAt m (gdt + 8 * 5)).lastByte = 103 := by
      rw [h.tssSeg]
      exact if_neg (show ¬(0x0#4).getLsbD 3 = true by decide)
    exact hlast

/-- The four flat segments, by their selectors. -/
theorem TablesOk.segs (h : TablesOk m gdt tss idt isr) :
    (loaded m gdt idt).seg 0x08#16 = some ⟨0#32, 0xFFFFF#20, 0x9A#8, 0xC#4⟩
      ∧ (loaded m gdt idt).seg 0x10#16 = some ⟨0#32, 0xFFFFF#20, 0x92#8, 0xC#4⟩
      ∧ (loaded m gdt idt).seg 0x1B#16 = some ⟨0#32, 0xFFFFF#20, 0xFA#8, 0xC#4⟩
      ∧ (loaded m gdt idt).seg 0x23#16 = some ⟨0#32, 0xFFFFF#20, 0xF2#8, 0xC#4⟩ := by
  have hseg : ∀ (sel : BitVec 16) (k : Nat) (s : Seg), index sel = k → k ≠ 0 → k < 6 →
      sel.getLsbD 2 = false → segAt m (gdt + 8 * k) = s → (loaded m gdt idt).seg sel = some s := by
    intro sel k s hk h0 h6 hti hs
    have hlimit : (loaded m gdt idt).gdtLimit = 47 := rfl
    have hin : ¬(k = 0 ∨ false = true ∨ 47 < 8 * k + 7) := by
      rintro (h | h | h)
      · exact h0 h
      · exact absurd h Bool.false_ne_true
      · omega
    rw [Tables.seg, hk, hti, hlimit, if_neg hin]
    exact congrArg some hs
  exact ⟨hseg _ 1 _ rfl (by decide) (by decide) rfl h.kernelCode,
    hseg _ 2 _ rfl (by decide) (by decide) rfl h.kernelData,
    hseg _ 3 _ rfl (by decide) (by decide) rfl h.userCode,
    hseg _ 4 _ rfl (by decide) (by decide) rfl h.userData⟩

theorem TablesOk.innerStack (hp : TablesPlaced gdt tss idt) (h : TablesOk m gdt tss idt isr) :
    (loaded m gdt idt).innerStack 0 = .ok (0x10#16, load32 m (tss + 4)) := by
  obtain ⟨htss, hlimit⟩ := loaded_tss hp h
  have hss : load16 (loaded m gdt idt).mem (tss + 8 * 0 + 8) = 0x10#16 := h.ss0
  have hdata : ¬(rpl 0x10#16 ≠ 0 ∨ dpl 0x92#8 ≠ 0
      ∨ Seg.writable ⟨0#32, 0xFFFFF#20, 0x92#8, 0xC#4⟩ = false) := by decide
  rw [Tables.innerStack, hlimit, if_neg (by decide)]
  simp only [htss, hss, h.segs.2.1, if_neg hdata]
  rfl

/-- The gates that are there. -/
theorem TablesOk.opens (h : TablesOk m gdt tss idt isr) {n : Nat} (hn : n < 256)
    (hgate : n < 48 ∨ n = 128 ∨ n = 129) :
    (loaded m gdt idt).Opens n (if n = 128 then 3 else 0) (isr n) := by
  have hcs : ∃ cs, (loaded m gdt idt).seg 0x08#16 = some cs ∧ cs.code = true
      ∧ present cs.access = true ∧ cs.conforming = false ∧ dpl cs.access = 0 :=
    ⟨_, h.segs.1, rfl, rfl, rfl, rfl⟩
  refine ⟨show 8 * n + 7 ≤ 2047 by omega, 0x08#16, if n = 128 then 0xEE#8 else 0x8E#8, ?_, ?_, ?_,
    ?_, hcs⟩
  · refine (h.gates n hn).trans ?_
    rw [idtGate]
    by_cases h128 : n = 128
    · rw [if_pos h128, if_pos h128]
    · rw [if_neg h128, if_neg h128, if_pos (by omega)]
  all_goals split <;> rfl

theorem TablesOk.closed (h : TablesOk m gdt tss idt isr) {n : Nat} (hn : n < 256)
    (hno : ¬(n < 48 ∨ n = 128 ∨ n = 129)) :
    (gateAt (loaded m gdt idt).mem ((loaded m gdt idt).idt + 8 * n)).interrupt32 = false := by
  have hzero : gateAt (loaded m gdt idt).mem ((loaded m gdt idt).idt + 8 * n)
      = ⟨0#32, 0#16, 0#8⟩ := by
    refine (h.gates n hn).trans ?_
    rw [idtGate, if_neg (by omega), if_neg (by omega)]
  rw [hzero]
  rfl

/-- Exceptions and device interrupts, at any level. -/
theorem TablesOk.enter_hardware (hp : TablesPlaced gdt tss idt) (h : TablesOk m gdt tss idt isr)
    (cpl : Nat) {n : Nat} (hn : n < 256) :
    (loaded m gdt idt).enter cpl false n
      = if n < 48 ∨ n = 128 ∨ n = 129 then
          .ok ⟨0, isr n, if cpl = 0 then none else some (0x10#16, load32 m (tss + 4))⟩
        else .error 13 := by
  by_cases hgate : n < 48 ∨ n = 128 ∨ n = 129
  · rw [if_pos hgate, (h.opens hn hgate).enter (h.innerStack hp), if_neg (by simp)]
  · rw [if_neg hgate, Tables.enter_closed (h.closed hn hgate)]

/-- `INT n` in a user task. -/
theorem TablesOk.enter_user (hp : TablesPlaced gdt tss idt) (h : TablesOk m gdt tss idt isr)
    {n : Nat} (hn : n < 256) :
    (loaded m gdt idt).enter 3 true n
      = if n = 128 then .ok ⟨0, isr 128, some (0x10#16, load32 m (tss + 4))⟩ else .error 13 := by
  by_cases hgate : n < 48 ∨ n = 128 ∨ n = 129
  · rw [(h.opens hn hgate).enter (h.innerStack hp)]
    by_cases h128 : n = 128
    · subst h128
      rfl
    · rw [if_neg h128, if_neg h128, if_pos (by decide)]
  · rw [if_neg (by omega), Tables.enter_closed (h.closed hn hgate)]

theorem load32_esps (m : Mem) (tss : Nat) (esps : List (BitVec 32)) (e : BitVec 32)
    (h : load32 m (tss + 4) = e) :
    load32 (esps.foldl (tssStoreEsp0 tss) m) (tss + 4) = esps.getLastD e := by
  induction esps generalizing m e with
  | nil => exact h
  | cons esp0 esps ih =>
      have hesp : load32 (tssStoreEsp0 tss m esp0) (tss + 4) = esp0 :=
        load32_store32_self m (tss + 4) esp0
      rw [List.foldl_cons, ih _ esp0 hesp, List.getLastD_cons]

/-- **Entries into the kernel.** After `gdt_init` and `idt_init`, wherever the tables are and
however `esp0` is set since: an exception or device interrupt enters the stub of its vector at
level 0, on the stack last put into `esp0` if it comes from a user task; and whatever `INT`
instruction a user task executes, it enters the stub of the system calls or the one of the
protection fault, on that stack. -/
theorem interrupt_entries (hp : TablesPlaced gdt tss idt) (m : Mem) (isr : Nat → BitVec 32)
    (esp0 : BitVec 32) (esps : List (BitVec 32)) {n : Nat} (hn : n < 256) :
    let t := loaded (tablesMem m gdt tss idt isr (esp0 :: esps)) gdt idt
    let stack := (0x10#16, esps.getLastD esp0)
    (∀ cpl, t.enter cpl false n
      = if n < 48 ∨ n = 128 ∨ n = 129 then .ok ⟨0, isr n, if cpl = 0 then none else some stack⟩
        else .error 13)
      ∧ t.deliver 3 true n = some ⟨0, if n = 128 then isr 128 else isr 13, some stack⟩ := by
  have hok : TablesOk (tablesMem m gdt tss idt isr (esp0 :: esps)) gdt tss idt isr :=
    (tables_init hp m isr).setEsp0s hp (esp0 :: esps)
  have hstack : load32 (tablesMem m gdt tss idt isr (esp0 :: esps)) (tss + 4)
      = esps.getLastD esp0 :=
    load32_esps _ tss esps esp0 (load32_store32_self _ (tss + 4) esp0)
  intro t stack
  have hhard : ∀ cpl k, k < 256 → t.enter cpl false k
      = if k < 48 ∨ k = 128 ∨ k = 129 then .ok ⟨0, isr k, if cpl = 0 then none else some stack⟩
        else .error 13 := by
    intro cpl k hk
    rw [hok.enter_hardware hp cpl hk, hstack]
  refine ⟨fun cpl => hhard cpl n hn, ?_⟩
  rw [Tables.deliver, hok.enter_user hp hn, hstack]
  by_cases h128 : n = 128
  · rw [if_pos h128, if_pos h128]
  · rw [if_neg h128, if_neg h128]
    dsimp only
    rw [hhard 3 13 (by decide)]
    rfl

/-- `INT 0x81` in a user task is a protection fault. -/
theorem interrupt_entries_yield :
    (loaded (tablesMem (fun _ => 0xCC#8) 0x1000 0x2000 0x3000 (BitVec.ofNat 32 ·) [0x9000#32])
      0x1000 0x3000).deliver 3 true 129 = some ⟨0, 13#32, some (0x10#16, 0x9000#32)⟩ :=
  (interrupt_entries ⟨by decide, by decide, by decide, by decide⟩ (fun _ => 0xCC#8)
    (BitVec.ofNat 32 ·) 0x9000#32 [] (show 129 < 256 by decide)).2

/-- `iret` to the context `c`, and loading its data segment before and after. -/
def CtxLoads (t : Tables) (c : Ctx) : Prop :=
  t.iretOk 0 (c.cs.setWidth 16) ((c.ss.getD 0#32).setWidth 16) = true
    ∧ t.dataOk 0 c.ds = true ∧ t.dataOk (rpl (c.cs.setWidth 16)) c.ds = true

/-- The data segment of user tasks can be loaded at every level. -/
theorem TablesOk.dataOk_user (h : TablesOk m gdt tss idt isr) {cpl : Nat} (hcpl : cpl ≤ 3) :
    (loaded m gdt idt).dataOk cpl 0x23#16 = true := by
  have hdpl : cpl ≤ dpl 0xF2#8 := hcpl
  rw [Tables.dataOk, h.segs.2.2.2]
  simp only [decide_eq_true hdpl, Bool.and_true]
  rfl

theorem TablesOk.iretOk_kernel (h : TablesOk m gdt tss idt isr) :
    (loaded m gdt idt).iretOk 0 0x08#16 0x00#16 = true := by
  rw [Tables.iretOk, h.segs.1]
  rfl

theorem TablesOk.loads_user (h : TablesOk m gdt tss idt isr) (entry : BitVec 32) (top : Nat) :
    CtxLoads (loaded m gdt idt) (userCtx entry top) := by
  obtain ⟨-, -, hcode, hdata⟩ := h.segs
  have hret : (loaded m gdt idt).iretOk 0 0x1B#16 0x23#16 = true := by
    rw [Tables.iretOk, hcode, hdata]
    rfl
  have hrpl : rpl ((userCtx entry top).cs.setWidth 16) = 3 := (by decide : rpl 0x1B#16 = 3)
  refine ⟨hret, h.dataOk_user (by decide), ?_⟩
  rw [hrpl]
  exact h.dataOk_user (Nat.le_refl 3)

theorem TablesOk.loads_kernel (h : TablesOk m gdt tss idt isr) (entry : BitVec 32) (top : Nat) :
    CtxLoads (loaded m gdt idt) (kernelCtx entry top) := by
  have hds : (loaded m gdt idt).dataOk 0 0x10#16 = true := by
    rw [Tables.dataOk, h.segs.2.1]
    rfl
  have hrpl : rpl ((kernelCtx entry top).cs.setWidth 16) = 0 := (by decide : rpl 0x08#16 = 0)
  refine ⟨h.iretOk_kernel, hds, ?_⟩
  rw [hrpl]
  exact hds

/-- **Frames of new tasks.** The processor accepts the frame of every task that
`task_create` or `task_create_user` builds, and the kernel's data segment in the stub; code
and data of both levels cover the whole address space; and a user task has access to no I/O
port. -/
theorem task_frames_load (hp : TablesPlaced gdt tss idt) (m : Mem) (isr : Nat → BitVec 32)
    (esps : List (BitVec 32)) (task : Task) (entry : BitVec 32) :
    let t := loaded (tablesMem m gdt tss idt isr esps) gdt idt
    CtxLoads t (initialCtx task entry) ∧ t.dataOk 0 0x10#16 = true
      ∧ (∀ sel ∈ [0x08#16, 0x10#16, 0x1B#16, 0x23#16],
        ∃ s, t.seg sel = some s ∧ s.base = 0#32 ∧ s.lastByte = 2 ^ 32 - 1 ∧ dpl s.access = rpl sel)
      ∧ (task.isUser = true → ∀ port,
        t.ioAllowed (rpl ((initialCtx task entry).cs.setWidth 16))
          ((initialCtx task entry).eflags.extractLsb' 12 2).toNat port = false) := by
  have hok : TablesOk (tablesMem m gdt tss idt isr esps) gdt tss idt isr :=
    (tables_init hp m isr).setEsp0s hp esps
  intro t
  obtain ⟨h08, h10, h1B, h23⟩ := hok.segs
  obtain ⟨htss, hlimit⟩ := loaded_tss hp hok
  refine ⟨?_, ?_, ?_, fun huser port => ?_⟩
  · rw [initialCtx]
    split
    · exact hok.loads_user entry _
    · exact hok.loads_kernel entry _
  · exact (hok.loads_kernel entry 0).2.1
  · intro sel hsel
    simp only [List.mem_cons, List.not_mem_nil, or_false] at hsel
    rcases hsel with rfl | rfl | rfl | rfl
    · exact ⟨_, h08, rfl, rfl, rfl⟩
    · exact ⟨_, h10, rfl, rfl, rfl⟩
    · exact ⟨_, h1B, rfl, rfl, rfl⟩
    · exact ⟨_, h23, rfl, rfl, rfl⟩
  · have hmap : (load16 t.mem (t.tss + 102)).toNat = 104 := by
      rw [htss]
      exact congrArg BitVec.toNat hok.iomap
    have hlevel : ¬rpl ((initialCtx task entry).cs.setWidth 16)
        ≤ ((initialCtx task entry).eflags.extractLsb' 12 2).toNat := by
      rw [initialCtx, if_pos huser]
      exact (by decide : ¬rpl 0x1B#16 ≤ ((0x202#32).extractLsb' 12 2).toNat)
    have hbeyond : ¬104 + port / 8 + 1 ≤ t.tssLimit := by
      rw [hlimit]
      omega
    rw [Tables.ioAllowed, hmap, decide_eq_false hlevel, decide_eq_false hbeyond, Bool.false_and,
      Bool.or_false]

/-- A user task and a kernel task. -/
theorem task_frames_load_both :
    CtxLoads (loaded (tablesMem (fun _ => 0xCC#8) 0x1000 0x2000 0x3000 (BitVec.ofNat 32 ·) [])
      0x1000 0x3000) (initialCtx { zeroTask with isUser := true } 0x100000#32)
      ∧ CtxLoads (loaded (tablesMem (fun _ => 0xCC#8) 0x1000 0x2000 0x3000 (BitVec.ofNat 32 ·) [])
        0x1000 0x3000) (initialCtx zeroTask 0x100000#32) := by
  have hp : TablesPlaced 0x1000 0x2000 0x3000 := ⟨by decide, by decide, by decide, by decide⟩
  exact ⟨(task_frames_load hp _ _ [] { zeroTask with isUser := true } 0x100000#32).1,
    (task_frames_load hp _ _ [] zeroTask 0x100000#32).1⟩

end Processor

end Matryoshka
