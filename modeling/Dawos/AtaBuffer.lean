import Dawos.Ata

/-! # The buffer of a read

What `ata_read` leaves in the buffer of its caller.  The sectors go to a temporary buffer, and `len`
bytes of it are copied whether or not there was an error.

`ata_read_buffer` says when a read that fails leaves the buffer as it was. -/

namespace Dawos

/-! ### The code -/

/-- Read to a buffer: the value returned, and the buffer after the call. -/
def ataReadTo (env : AtaEnv) (idx lba len : ℕ) (buff : ℕ → UInt8) : Bool × (ℕ → UInt8) :=
  match ataRead env idx lba len with
  | none => (false, buff)
  | some r => (r.ok, fun i => if i < len then r.bytes i else buff i)

/-! ### The temporary buffer -/

section buffer

variable {poll : ℕ → ℕ} {env : AtaEnv} {idx lba len sectors i j k : ℕ}

/-- The loop ends without an error iff no sector has one. -/
theorem ataTransfer_ok_iff : (ataTransfer poll k i).2 = true ↔ ∀ j, i ≤ j → j < i + k → poll j = 0 := by
  induction k generalizing i with
  | zero => exact iff_of_true rfl fun j h1 h2 => by omega
  | succ k ih =>
      rw [ataTransfer]
      split_ifs with hp
      · rw [ih]
        constructor
        · intro h j h1 h2
          by_cases hj : j = i
          · rw [hj, hp]
          · exact h j (by omega) (by omega)
        · exact fun h j h1 h2 => h j (by omega) (by omega)
      · exact iff_of_false (by simp) fun h => hp (h i le_rfl (by omega))

theorem le_ataTransfer (poll : ℕ → ℕ) : ∀ k i, i ≤ (ataTransfer poll k i).1
  | 0, _ => le_rfl
  | k + 1, i => by
      rw [ataTransfer]
      split_ifs
      · exact (Nat.le_succ i).trans (le_ataTransfer poll k (i + 1))
      · exact le_rfl

/-- A sector is transferred iff there is no error up to it. -/
theorem ataTransfer_lt (hij : i ≤ j) : j < (ataTransfer poll k i).1 ↔
    j < i + k ∧ ∀ j', i ≤ j' → j' ≤ j → poll j' = 0 := by
  induction k generalizing i with
  | zero =>
      rw [ataTransfer, Nat.add_zero]
      exact iff_of_false (by omega) fun h => by omega
  | succ k ih =>
      rw [ataTransfer]
      split_ifs with hp
      · by_cases he : j = i
        · subst he
          refine iff_of_true ?_ ⟨by omega, fun j' h1 h2 => ?_⟩
          · exact lt_of_lt_of_le (Nat.lt_succ_self j) (le_ataTransfer poll k (j + 1))
          · rw [le_antisymm h2 h1, hp]
        · rw [ih (by omega), Nat.add_right_comm i 1 k, Nat.add_assoc i k 1]
          refine and_congr_right fun _ => ⟨fun h j' h1 h2 => ?_, fun h j' h1 h2 => h j' (by omega) h2⟩
          by_cases hj : j' = i
          · rw [hj, hp]
          · exact h j' (by omega) h2
      · exact iff_of_false (by omega) fun h => hp (h.2 i le_rfl hij)

/-- What byte `i` of the temporary buffer holds: the data of its sector, unless there was an error
up to it. -/
def tempByte (env : AtaEnv) (idx lba sectors i : ℕ) : UInt8 :=
  let dev := env.dev idx
  let answer := env.answer idx lba
  if i / dev.sectorSize < sectors ∧ ∀ j ≤ i / dev.sectorSize, answer.poll j = 0 then
    answer.data (i / dev.sectorSize) (i % dev.sectorSize)
  else env.stale i

theorem ataReadSectors_bytes :
    (ataReadSectors env idx lba sectors).bytes i = tempByte env idx lba sectors i := by
  unfold ataReadSectors tempByte
  dsimp only
  apply if_congr _ rfl rfl
  rw [ataTransfer_lt (Nat.zero_le _), Nat.zero_add]
  simp only [Nat.zero_le, true_implies]

theorem ataReadSectors_ok_iff : (ataReadSectors env idx lba sectors).ok = true ↔
    ∀ i < sectors, (env.answer idx lba).poll i = 0 := by
  unfold ataReadSectors
  dsimp only
  rw [ataTransfer_ok_iff, Nat.zero_add]
  simp only [Nat.zero_le, true_implies]

theorem ataReadTo_some {buff : ℕ → UInt8} {r : AtaResult} (h : ataRead env idx lba len = some r) :
    ataReadTo env idx lba len buff = (r.ok, fun i => if i < len then r.bytes i else buff i) := by
  unfold ataReadTo
  rw [h]

/-- A read of a device that is there. -/
theorem ataReadTo_unchanged {buff : ℕ → UInt8} (hidx : idx < env.devCount)
    (hr : ataRead env idx lba len = some (ataReadSectors env idx lba sectors)) :
    ((ataReadTo env idx lba len buff).1 = false → (ataReadTo env idx lba len buff).2 = buff) ↔
      env.devCount ≤ idx ∨ (∀ i < sectors, (env.answer idx lba).poll i = 0) ∨
        ∀ i < len, tempByte env idx lba sectors i = buff i := by
  rw [ataReadTo_some hr, ← Bool.not_eq_true, ataReadSectors_ok_iff, or_iff_right (Nat.not_le.mpr hidx),
    ← or_iff_not_imp_left]
  apply or_congr_right
  rw [funext_iff]
  apply forall_congr'
  intro i
  change (if i < len then (ataReadSectors env idx lba sectors).bytes i else buff i) = _ ↔ _
  rw [ataReadSectors_bytes]
  split_ifs with hi
  · exact ⟨fun h _ => h, fun h => h hi⟩
  · exact iff_of_true rfl fun h => absurd h hi

/-- **A read that returns false leaves the buffer as it was iff there is no such device, no sector of
the read has an error, or the buffer holds the bytes of the temporary buffer already.** -/
theorem ata_read_buffer (env : AtaEnv) (idx lba len : ℕ) (buff : ℕ → UInt8) :
    ((ataReadTo env idx lba len buff).1 = false → (ataReadTo env idx lba len buff).2 = buff) ↔
      env.devCount ≤ idx ∨
        (∀ i < ataSectors (env.dev idx) len, (env.answer idx lba).poll i = 0) ∨
        ∀ i < len, tempByte env idx lba (ataSectors (env.dev idx) len) i = buff i := by
  by_cases hidx : idx < env.devCount
  · exact ataReadTo_unchanged hidx (if_pos hidx)
  · have hr : ataRead env idx lba len = none := if_neg hidx
    unfold ataReadTo
    rw [hr]
    exact iff_of_true (fun _ => rfl) (.inl (Nat.not_lt.mp hidx))

/-- A disk that reports an error before the second sector. -/
def failingDisk : AtaEnv :=
  { oneDisk true with answer := fun _ _ => ⟨fun i => if i = 1 then 1 else 0, fun _ _ => 0x41⟩ }

/-- The first sector is in the buffer, and the read returns false. -/
theorem ata_read_partial : (ataReadTo failingDisk 0 7 1024 fun _ => 0xFF).1 = false ∧
    (ataReadTo failingDisk 0 7 1024 fun _ => 0xFF).2 ≠ fun _ => 0xFF := by
  refine ⟨by decide +kernel, fun h => ?_⟩
  have h0 := congrFun h 0
  revert h0
  decide +kernel

end buffer

end Dawos
