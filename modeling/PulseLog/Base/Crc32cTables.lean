/-
  Subject:   The implementations of CRC-32C (src/base/crc32c.cc).

  `Crc32c` picks one of three loops when the process starts: eight table lookups for eight bytes, or
  the CRC instructions of the processor. An instruction is modelled by what it computes, the steps
  of the bytes of its operand, lowest first.

  * `tableEntry_eq` -- table `s` holds `8 (s + 1)` steps of its index;
  * `crc32cWith_eq` -- every implementation computes `crc32cSeeded`.
-/
import PulseLog.Base.Crc32c
import PulseLog.General.Crc

namespace PulseLog

open List

/-! ## 1. The loops -/

/-- The table of `MakeTables` for one byte. -/
def table0 (i : BitVec 32) : BitVec 32 := crcBit^[8] i

/-- `kTables[slice][i]`. -/
def tableEntry : Nat → BitVec 32 → BitVec 32
  | 0, i => table0 i
  | slice + 1, i =>
    let crc := tableEntry slice i
    table0 (crc &&& 0xFF#32) ^^^ (crc >>> 8)

/-- `LoadLe<std::uint32_t>`. -/
def loadWord (bs : Bytes) : BitVec 32 := BitVec.ofNat 32 (leNat bs)

/-- One byte by the table. -/
def tableByte (crc : BitVec 32) (b : UInt8) : BitVec 32 :=
  table0 ((crc ^^^ BitVec.ofNat 32 b.toNat) &&& 0xFF#32) ^^^ (crc >>> 8)

/-- The loops of `Crc32cSoftware`: eight bytes at a time, then byte by byte. -/
def softwareLoop : Bytes → BitVec 32 → BitVec 32
  | b0 :: b1 :: b2 :: b3 :: b4 :: b5 :: b6 :: b7 :: rest, crc =>
    let crc := crc ^^^ loadWord [b0, b1, b2, b3]
    let next := loadWord [b4, b5, b6, b7]
    softwareLoop rest (tableEntry 7 (crc &&& 0xFF#32) ^^^ tableEntry 6 ((crc >>> 8) &&& 0xFF#32) ^^^
      tableEntry 5 ((crc >>> 16) &&& 0xFF#32) ^^^ tableEntry 4 ((crc >>> 24) &&& 0xFF#32) ^^^
      tableEntry 3 (next &&& 0xFF#32) ^^^ tableEntry 2 ((next >>> 8) &&& 0xFF#32) ^^^
      tableEntry 1 ((next >>> 16) &&& 0xFF#32) ^^^ tableEntry 0 ((next >>> 24) &&& 0xFF#32))
  | rest, crc => rest.foldl tableByte crc

/-- `Crc32cSoftware`. -/
def crc32cSoftware (data : Bytes) (seed : BitVec 32) : BitVec 32 := ~~~(softwareLoop data (~~~seed))

/-- A CRC instruction: the steps of the operand's bytes. -/
def crcInstruction (crc : BitVec 32) (operand : Bytes) : BitVec 32 := operand.foldl crcByte crc

/-- Eight bytes at a time; what is left is handed to the next loop. -/
def wordLoop : Bytes → BitVec 32 → Bytes × BitVec 32
  | b0 :: b1 :: b2 :: b3 :: b4 :: b5 :: b6 :: b7 :: rest, crc =>
    wordLoop rest (crcInstruction crc [b0, b1, b2, b3, b4, b5, b6, b7])
  | rest, crc => (rest, crc)

/-- `Crc32cSse42`; `address` is where the data lies. -/
def crc32cSse42 (address : Nat) (data : Bytes) (seed : BitVec 32) : BitVec 32 :=
  let unaligned := (8 - address % 8) % 8
  let crc := (data.take unaligned).foldl (fun crc b => crcInstruction crc [b]) (~~~seed)
  let (rest, crc) := wordLoop (data.drop unaligned) crc
  ~~~(rest.foldl (fun crc b => crcInstruction crc [b]) crc)

/-- `n` bytes in one instruction, if that many are left. -/
def partWord (n : Nat) (s : Bytes × BitVec 32) : Bytes × BitVec 32 :=
  if n ≤ s.1.length then (s.1.drop n, crcInstruction s.2 (s.1.take n)) else s

/-- `Crc32cArm`: less than eight bytes are left for the word, the half-word and the byte. -/
def crc32cArm (data : Bytes) (seed : BitVec 32) : BitVec 32 :=
  ~~~(partWord 1 (partWord 2 (partWord 4 (wordLoop data (~~~seed))))).2

/-- `Impl`. -/
inductive Crc32cImpl where
  | software
  | arm
  | sse42
  deriving Repr, DecidableEq

/-- `Crc32c`. -/
def crc32cWith (impl : Crc32cImpl) (address : Nat) (data : Bytes) (seed : BitVec 32) : BitVec 32 :=
  match impl with
  | .software => crc32cSoftware data seed
  | .arm => crc32cArm data seed
  | .sse42 => crc32cSse42 address data seed

/-! ## 2. What the tables hold -/

theorem crcBit_eq (x : BitVec 32) : crcBit x = crcStep crcPoly x := by
  unfold crcBit crcStep
  rw [BitVec.and_one_eq_setWidth_ofBool_getLsbD]
  cases x.getLsbD 0 <;> rfl

theorem iterate_crcBit (n : Nat) (x : BitVec 32) : crcBit^[n] x = crcSteps crcPoly n x := by
  rw [crcSteps, funext crcBit_eq]

theorem crcByte_eq (crc : BitVec 32) (b : UInt8) :
    crcByte crc b = crcSteps crcPoly 8 (crc ^^^ BitVec.ofNat 32 b.toNat) := iterate_crcBit 8 _

theorem table0_eq (i : BitVec 32) : table0 i = crcSteps crcPoly 8 i := iterate_crcBit 8 i

theorem getLsbD_byteMask : ∀ i < 32, (0xFF#32).getLsbD i = decide (i < 8) := by decide

theorem table0_steps (x : BitVec 32) :
    table0 (x &&& 0xFF#32) ^^^ (x >>> 8) = crcSteps crcPoly 8 x := by
  rw [table0_eq, ← crcSteps_split getLsbD_byteMask]

/-- **What a table holds.** -/
theorem tableEntry_eq (slice : Nat) (i : BitVec 32) :
    tableEntry slice i = crcSteps crcPoly (8 * (slice + 1)) i := by
  induction slice with
  | zero => exact table0_eq i
  | succ slice ih =>
    rw [tableEntry, table0_steps, ih, ← crcSteps_add]
    congr 1
    omega

theorem tableByte_eq (crc : BitVec 32) (b : UInt8) : tableByte crc b = crcByte crc b := by
  have hshift : (crc ^^^ BitVec.ofNat 32 b.toNat) >>> 8 = crc >>> 8 := by
    have hb : BitVec.ofNat 32 b.toNat >>> 8 = 0#32 := by
      apply BitVec.eq_of_toNat_eq
      have := b.toNat_lt
      rw [BitVec.toNat_ushiftRight, BitVec.toNat_ofNat, Nat.shiftRight_eq_div_pow,
        Nat.mod_eq_of_lt (by omega)]
      exact Nat.div_eq_of_lt this
    rw [BitVec.ushiftRight_xor_distrib, hb, BitVec.xor_zero]
  rw [tableByte, ← hshift, table0_steps, crcByte_eq]

/-- A word of four bytes by four tables. -/
theorem steps_of_word (x : BitVec 32) (k : Nat) :
    crcSteps crcPoly (8 * (k + 4)) x =
      tableEntry (k + 3) (x &&& 0xFF#32) ^^^ tableEntry (k + 2) ((x >>> 8) &&& 0xFF#32) ^^^
        tableEntry (k + 1) ((x >>> 16) &&& 0xFF#32) ^^^ tableEntry k ((x >>> 24) &&& 0xFF#32) := by
  -- one byte after the other leaves the word
  have hbyte : ∀ n y, crcSteps crcPoly (8 * (n + 1)) y =
      tableEntry n (y &&& 0xFF#32) ^^^ crcSteps crcPoly (8 * n) (y >>> 8) := by
    intro n y
    rw [tableEntry_eq, Nat.mul_add, crcSteps_add, crcSteps_split getLsbD_byteMask,
      crcSteps_xor, ← crcSteps_add]
  have hgone : x >>> 24 >>> 8 = 0#32 := by
    rw [← BitVec.shiftRight_add]
    exact BitVec.ushiftRight_eq_zero (by decide)
  have hzero : crcSteps crcPoly (8 * k) (0#32) = 0#32 := by
    rw [crcSteps_low fun i _ => BitVec.getLsbD_zero]
    exact BitVec.zero_ushiftRight
  rw [hbyte (k + 3), hbyte (k + 2), hbyte (k + 1), hbyte k, ← BitVec.shiftRight_add,
    ← BitVec.shiftRight_add, hgone, hzero, BitVec.xor_zero, BitVec.xor_assoc, BitVec.xor_assoc]

/-! ## 3. The loops compute the same -/

theorem foldl_crcByte (bs : Bytes) (crc : BitVec 32) (h : bs.length = 4) :
    bs.foldl crcByte crc = crcSteps crcPoly 32 (crc ^^^ loadWord bs) := by
  have hword := crcSteps_leNat crcPoly bs crc (by omega)
  rw [h] at hword
  rw [funext fun crc => funext fun b => crcByte_eq crc b]
  exact hword.symm

/-- **Eight bytes by eight tables.** -/
theorem softwareLoop_eq : ∀ (data : Bytes) (crc : BitVec 32),
    softwareLoop data crc = data.foldl crcByte crc := by
  intro data crc
  have htail : ∀ (rest : Bytes) crc, rest.foldl tableByte crc = rest.foldl crcByte crc := by
    rw [funext fun crc => funext fun b => tableByte_eq crc b]
    exact fun _ _ => rfl
  fun_induction softwareLoop data crc with
  | case1 b0 b1 b2 b3 b4 b5 b6 b7 rest crc0 crc next ih =>
    rw [ih]
    have hfirst := foldl_crcByte [b0, b1, b2, b3] crc0 rfl
    have hsecond := foldl_crcByte [b4, b5, b6, b7] ([b0, b1, b2, b3].foldl crcByte crc0) rfl
    have hall : [b0, b1, b2, b3, b4, b5, b6, b7].foldl crcByte crc0 =
        crcSteps crcPoly 64 crc ^^^ crcSteps crcPoly 32 next := by
      show [b4, b5, b6, b7].foldl crcByte ([b0, b1, b2, b3].foldl crcByte crc0) = _
      rw [hsecond, hfirst, crcSteps_xor, ← crcSteps_add]
    show _ = rest.foldl crcByte ([b0, b1, b2, b3, b4, b5, b6, b7].foldl crcByte crc0)
    rw [hall, steps_of_word crc 4, steps_of_word next 0]
    simp only [BitVec.xor_assoc]
  | case2 rest crc _ => exact htail rest crc

theorem wordLoop_eq (data : Bytes) (crc : BitVec 32) :
    (wordLoop data crc).1.foldl crcByte (wordLoop data crc).2 = data.foldl crcByte crc := by
  fun_induction wordLoop data crc with
  | case1 b0 b1 b2 b3 b4 b5 b6 b7 rest crc ih => exact ih
  | case2 rest crc _ => rfl

theorem length_wordLoop (data : Bytes) (crc : BitVec 32) : (wordLoop data crc).1.length < 8 := by
  fun_induction wordLoop data crc with
  | case1 b0 b1 b2 b3 b4 b5 b6 b7 rest crc ih => exact ih
  | case2 rest crc hshort =>
    rcases rest with _ | ⟨b0, _ |
      ⟨b1, _ | ⟨b2, _ | ⟨b3, _ | ⟨b4, _ | ⟨b5, _ | ⟨b6, _ | ⟨b7, rest⟩⟩⟩⟩⟩⟩⟩⟩
    case cons.cons.cons.cons.cons.cons.cons.cons =>
      exact absurd rfl (hshort b0 b1 b2 b3 b4 b5 b6 b7 rest)
    all_goals simp

theorem partWord_eq (n : Nat) (s : Bytes × BitVec 32) :
    (partWord n s).1.foldl crcByte (partWord n s).2 = s.1.foldl crcByte s.2 := by
  unfold partWord
  split
  · show (s.1.drop n).foldl crcByte ((s.1.take n).foldl crcByte s.2) = _
    rw [← foldl_append, take_append_drop]
  · rfl

theorem length_partWord {n : Nat} {s : Bytes × BitVec 32} (h : s.1.length < 2 * n) :
    (partWord n s).1.length < n := by
  unfold partWord
  split
  · rw [length_drop]
    omega
  · omega

theorem crc32cArm_eq (data : Bytes) (seed : BitVec 32) :
    crc32cArm data seed = crc32cSeeded data seed := by
  have h8 := length_wordLoop data (~~~seed)
  have h1 := length_partWord (n := 1) (length_partWord (length_partWord h8))
  have heq := partWord_eq 1 (partWord 2 (partWord 4 (wordLoop data (~~~seed))))
  rw [length_eq_zero_iff.mp (Nat.lt_one_iff.mp h1), foldl_nil, partWord_eq, partWord_eq,
    wordLoop_eq] at heq
  rw [crc32cArm, heq, crc32cSeeded]

theorem crc32cSse42_eq (address : Nat) (data : Bytes) (seed : BitVec 32) :
    crc32cSse42 address data seed = crc32cSeeded data seed := by
  have hbyte : (fun crc b => crcInstruction crc [b]) = crcByte := rfl
  unfold crc32cSse42 crc32cSeeded
  dsimp only
  rw [hbyte, wordLoop_eq, ← foldl_append, take_append_drop]

/-- **Every implementation computes CRC-32C**, wherever the data lies. -/
theorem crc32cWith_eq (impl : Crc32cImpl) (address : Nat) (data : Bytes) (seed : BitVec 32) :
    crc32cWith impl address data seed = crc32cSeeded data seed := by
  cases impl with
  | software => exact congrArg (~~~·) (softwareLoop_eq data _)
  | arm => exact crc32cArm_eq data seed
  | sse42 => exact crc32cSse42_eq address data seed

/-- **The loops compute CRC-32C**, the hardware ones for every place of the data, and two pieces
    give the checksum of both when the first result is the seed of the second. -/
theorem loops_compute_crc32c (data : Bytes) (seed : BitVec 32) :
    crc32cSoftware data seed = crc32cSeeded data seed ∧
      (∀ address, crc32cSse42 address data seed = crc32cSeeded data seed) ∧
      crc32cArm data seed = crc32cSeeded data seed ∧
      ∀ impl address address' rest,
        crc32cWith impl address' rest (crc32cWith impl address data seed) =
        crc32cWith impl address (data ++ rest) seed := by
  refine ⟨crc32cWith_eq .software 0 data seed, fun address => crc32cSse42_eq address data seed,
    crc32cArm_eq data seed, fun impl address address' rest => ?_⟩
  simp only [crc32cWith_eq, crc32cSeeded, BitVec.not_not, foldl_append]

end PulseLog
