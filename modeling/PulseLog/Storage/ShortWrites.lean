/-
  Subject:   The two write loops of `FileHandle` (WriteAllAt and WriteVectoredAt in
             src/storage/file_util.cc), call by call.

  `FileUtil` takes a write as one operation that a fault may cut short. Here the kernel is asked
  again and again: each answer takes some of the offered bytes, is interrupted, or fails.

  * **`vectored_writes_flat`** -- the chunks leave what their concatenation leaves.
-/
import PulseLog.Storage.FileUtil

namespace PulseLog

open List

namespace FileHandle

/-- What `pwrite` or `pwritev` answers: so many bytes of those offered, `EINTR`, or another
    error. -/
inductive WriteAnswer where
  | wrote (n : Nat)
  | interrupted
  | failed (e : Status)

/-- Bytes in a file; no bytes do not even fill a gap. -/
def placed (file : Bytes) (pos : Nat) (data : Bytes) : Bytes :=
  if data = [] then file else splice file pos data

/-- The loop over the buffers `rest`: what it returns, if the answers last, and the file. -/
def transfer {σ : Type} (name : String) (done : σ → Bool) (offered : σ → Bytes)
    (advance : Nat → σ → σ) : List WriteAnswer → Bytes → Nat → σ →
      Option (Except Status Unit) × Bytes
  | answers, file, pos, rest =>
    if done rest then (some (.ok ()), file)
    else match answers with
      | [] => (none, file)
      | .interrupted :: answers => transfer name done offered advance answers file pos rest
      | .failed e :: _ => (some (.error e), file)
      | .wrote n :: answers =>
        let data := (offered rest).take n
        if data = [] then (some (.error (.ioError s!"{name} made no progress")), file)
        else transfer name done offered advance answers (placed file pos data) (pos + data.length)
          (advance data.length rest)

/-- `FileHandle::WriteAllAt`; `kMaxTransfer` is 2^30. -/
def writeAllAt (answers : List WriteAnswer) (file : Bytes) (offset : Nat) (data : Bytes) :
    Option (Except Status Unit) × Bytes :=
  transfer "pwrite" List.isEmpty (take (2 ^ 30)) drop answers file offset data

/-- Whole vectors are consumed, then the one the write stopped inside. -/
def consume : Nat → List Bytes → List Bytes
  | _, [] => []
  | n, v :: vecs => if v.length ≤ n then consume (n - v.length) vecs else v.drop n :: vecs

/-- `FileHandle::WriteVectoredAt`; `kMaxIovecs` is 64. -/
def writeVectoredAt (answers : List WriteAnswer) (file : Bytes) (offset : Nat)
    (chunks : List Bytes) : Option (Except Status Unit) × Bytes :=
  transfer "pwritev" List.isEmpty (fun vecs => (vecs.take 64).flatten) consume answers file offset
    (chunks.filter (fun chunk => !chunk.isEmpty))

/-- Two writes, one behind the other, are one. -/
theorem placed_placed (file : Bytes) (pos : Nat) (a b : Bytes) :
    placed (placed file pos a) (pos + a.length) b = placed file pos (a ++ b) := by
  unfold placed
  rcases eq_or_ne a [] with rfl | ha
  · rfl
  rcases eq_or_ne b [] with rfl | hb
  · rw [append_nil, if_pos rfl]
  rw [if_neg ha, if_neg hb, if_neg (by simp [ha])]
  have hfront : (file.take pos ++ zeros (pos - file.length) ++ a).length = pos + a.length := by
    simp only [length_append, length_take, length_zeros]
    omega
  have hsecond := splice_append (file.take pos ++ zeros (pos - file.length) ++ a)
    (file.drop (pos + a.length)) b
  rw [hfront, drop_drop] at hsecond
  refine hsecond.trans ?_
  rw [splice, length_append, Nat.add_assoc]
  simp only [append_assoc]

section Loop

variable {σ : Type} {done : σ → Bool} {offered : σ → Bytes} {advance : Nat → σ → σ}

/-- **What the loop writes**: `bytes` are those of the buffers that remain. -/
theorem transfer_writes (name : String) (bytes : σ → Bytes)
    (hdone : ∀ rest, done rest = true → bytes rest = [])
    (hoffered : ∀ rest, offered rest <+: bytes rest)
    (hadvance : ∀ n rest, bytes (advance n rest) = (bytes rest).drop n) (answers : List WriteAnswer)
    (file : Bytes) (pos : Nat) (rest : σ) :
    let r := transfer name done offered advance answers file pos rest
    (r.1 = some (.ok ()) → r.2 = placed file pos (bytes rest)) ∧
      ∃ k, r.2 = placed file pos ((bytes rest).take k) := by
  have hnone : ∃ k, file = placed file pos ((bytes rest).take k) := ⟨0, rfl⟩
  induction answers generalizing file pos rest with
  | nil =>
    unfold transfer
    split
    · rename_i hd
      exact ⟨fun _ => by rw [hdone rest hd]; rfl, hnone⟩
    · exact ⟨by simp, hnone⟩
  | cons answer answers ih =>
    unfold transfer
    split
    · rename_i hd
      exact ⟨fun _ => by rw [hdone rest hd]; rfl, hnone⟩
    cases answer with
    | interrupted => exact ih file pos rest hnone
    | failed e => exact ⟨by simp, hnone⟩
    | wrote n =>
      dsimp only
      split
      · exact ⟨by simp, hnone⟩
      -- what is written is a part from the front of what remains
      obtain ⟨behind, hbytes⟩ := take_prefix n (offered rest) |>.trans (hoffered rest)
      generalize (offered rest).take n = data at hbytes
      obtain ⟨hok, k, hk⟩ := ih (placed file pos data) (pos + data.length)
        (advance data.length rest) ⟨0, rfl⟩
      rw [hadvance, ← hbytes, drop_left, placed_placed] at hok hk
      rw [← hbytes]
      exact ⟨hok, data.length + k, by rw [take_length_add_append]; exact hk⟩

end Loop

theorem flatten_consume : ∀ (n : Nat) (vecs : List Bytes),
    (consume n vecs).flatten = vecs.flatten.drop n
  | _, [] => by simp [consume]
  | n, v :: vecs => by
    unfold consume
    split
    · rename_i hle
      rw [flatten_consume, flatten_cons, drop_append, drop_of_length_le hle, nil_append]
    · rw [flatten_cons, flatten_cons, drop_append_of_le_length (by omega)]

/-- **Chunks are written as their concatenation is**: an OK call leaves what an OK `WriteAllAt`
    leaves, and every call a part of it from the front. -/
theorem vectored_writes_flat (chunks : List Bytes) (offset : Nat) (file : Bytes)
    (answers answers' : List WriteAnswer) :
    ((writeAllAt answers' file offset chunks.flatten).1 = some (.ok ()) →
      (writeAllAt answers' file offset chunks.flatten).2 = placed file offset chunks.flatten) ∧
    ((writeVectoredAt answers file offset chunks).1 = some (.ok ()) →
      (writeVectoredAt answers file offset chunks).2 = placed file offset chunks.flatten) ∧
    ∃ k, (writeVectoredAt answers file offset chunks).2 =
      placed file offset (chunks.flatten.take k) := by
  have hvec := transfer_writes "pwritev" flatten (fun _ hd => congrArg flatten (isEmpty_iff.mp hd))
    (fun vecs => ⟨(vecs.drop 64).flatten, by rw [← flatten_append, take_append_drop]⟩)
    flatten_consume answers file offset (chunks.filter (fun chunk => !chunk.isEmpty))
  rw [flatten_filter_not_isEmpty] at hvec
  refine ⟨(transfer_writes "pwrite" id ?_ (fun _ => take_prefix (2 ^ 30) _) ?_ answers' file offset
    _).1, hvec⟩
  · exact fun _ hd => isEmpty_iff.mp hd
  · exact fun _ _ => rfl

end FileHandle
end PulseLog
