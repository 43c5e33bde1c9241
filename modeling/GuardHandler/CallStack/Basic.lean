import GuardHandler.Memory.ByteMemory
import GuardHandler.Machine.Registers
import GuardHandler.Outcome

/-!
# The call stack

The frames of the call stack, the frame of the last function called first and that of `main`
last. A frame records where its function returns to, and the stack map record of the call it
returns from.
-/

/-- The memory of the process. -/
abbrev Memory : Type := ByteMemory 64

/-- The size of an address, `ADDR_SIZE`. -/
def addrSize : Word := 8

/-- A stack frame. The field `retAddr` is the address of the return address of the frame, or
the return address itself when the frame is that of an inlined function; `storedRetAddr` is
the original return address. The live locations are relative to `realBp`, the base pointer of
the function in which an inlined function was inlined. -/
structure Frame where
  retAddr : Word
  storedRetAddr : Word
  size : Word
  bp : Word
  realBp : Word
  registers : RegisterFile
  record : StackMapRecord
  realRecord : StackMapRecord
  inlined : Bool

/-- A frame with all fields zero, as `alloc_empty_frames(1)` allocates it. -/
def Frame.zero : Frame :=
  ⟨0, 0, 0, 0, 0, fun _ => 0, .zero, .zero, false⟩

/-- The memory area of the rebuilt call stack. -/
structure RestoredSegment where
  startAddr : Word
  totalSize : Word

/-- The frames after `insert_frames(state, index, frames, num_frames)`. -/
def insertFrames (state : List Frame) (index : ℕ) (frames : List Frame) : List Frame :=
  state.take index ++ frames ++ state.drop index

theorem insertFrames_zero (state frames : List Frame) :
  insertFrames state 0 frames = frames ++ state
  := by
  simp [insertFrames]

theorem length_insertFrames (state : List Frame) {index : ℕ} (frames : List Frame)
    (h : index ≤ state.length) :
  (insertFrames state index frames).length = state.length + frames.length
  := by
  simp only [insertFrames, List.length_append, List.length_take, List.length_drop]
  omega

theorem insertFrames_injective {state : List Frame} {index : ℕ} {frames frames' : List Frame}
    (h : insertFrames state index frames = insertFrames state index frames') :
  frames = frames'
  := by
  rw [insertFrames, insertFrames, List.append_left_inj, List.append_right_inj] at h
  apply h
