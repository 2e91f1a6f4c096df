import HttpProxy.MyParserUtils

/-!
# What the parser utilities leave of the input

Whatever the input buffer holds, zero bytes included, a utility that did not run out of input has
only read: nothing was pushed back, and no more is left to read than there was. Both parsers rest
on this where their loops have to end.
-/

namespace HttpProxy

/-- `io'` is `io` after some of the input was read and none pushed back. -/
structure Io.Consumes (io io' : Io) : Prop where
  empty : io'.isBufferEmpty = io.isBufferEmpty
  length_le : io'.b.bytes.length ≤ io.b.bytes.length

namespace Io.Consumes

theorem refl (io : Io) : io.Consumes io := ⟨rfl, Nat.le_refl _⟩

theorem trans {io io' io'' : Io} (h : io.Consumes io') (h' : io'.Consumes io'') :
    io.Consumes io'' :=
  ⟨h'.empty.trans h.empty, Nat.le_trans h'.length_le h.length_le⟩

end Io.Consumes

/-- Reading a byte shortens the buffer, unless it is empty. -/
theorem length_readAndWrite (io : Io) :
    (readAndWrite io).2.b.bytes.length = io.b.bytes.length - 1 := by
  rw [show (readAndWrite io).2.b = (bufferRead io.b).2 from rfl, Buffer.bytes_read, List.length_tail]

/-- A byte that is not zero was there, so the buffer gets shorter. -/
theorem length_readAndWrite_lt {io : Io} (h : (readAndWrite io).1 ≠ 0) :
    (readAndWrite io).2.b.bytes.length < io.b.bytes.length := by
  have hne : io.b.bytes ≠ [] := by
    intro hnil
    refine h ?_
    rw [show (readAndWrite io).1 = (bufferRead io.b).1 from rfl,
      Buffer.read_nil (Buffer.cells_eq_nil.mpr hnil)]
  rw [length_readAndWrite]
  exact Nat.sub_one_lt (Nat.ne_of_gt (List.length_pos_iff.mpr hne))

/-- Reading a byte only consumes. -/
theorem readAndWrite_consumes (io : Io) : io.Consumes (readAndWrite io).2 :=
  ⟨rfl, by rw [length_readAndWrite]; exact Nat.sub_le _ _⟩

/-- Reading a byte with or without writing it only consumes. -/
theorem readByte_consumes (echo : Bool) (io : Io) : io.Consumes (readByte echo io) := by
  cases echo with
  | true => exact readAndWrite_consumes io
  | false => exact ⟨rfl, (readAndWrite_consumes io).length_le⟩

/-- Skipping the blanks only consumes. -/
theorem moveThroughSpacesLoop_length_le (fuel : Nat) (b : Buffer) :
    (moveThroughSpacesLoop fuel b).2.bytes.length ≤ b.bytes.length := by
  induction fuel generalizing b with
  | zero => exact Nat.le_refl _
  | succ fuel ih =>
    rw [moveThroughSpacesLoop]
    split
    · refine Nat.le_trans (ih _) ?_
      rw [Buffer.bytes_read, List.length_tail]
      exact Nat.sub_le _ _
    · exact Nat.le_refl _

/-- Comparing with a format consumes: what it reads on the way is pushed back by its caller. -/
theorem matchFormatLoop_consumes (echo : Bool) (format : List UInt8) (i : Nat) (c : UInt8)
    (io : Io) : io.Consumes (matchFormatLoop echo format i c io).2.2.2 := by
  induction format generalizing i c io with
  | nil => exact .refl io
  | cons f format ih =>
    rw [matchFormatLoop]
    split
    · exact .refl io
    · exact (readByte_consumes echo io).trans (ih _ _ _)

/-- `matchFormat` pushes back only when it sets the flag and returns `false`. -/
theorem matchFormatWith_consumes (echo : Bool) (format pre : List UInt8) (io : Io)
    (h : (matchFormatWith echo format pre io).1 = true ∨
      (matchFormatWith echo format pre io).2.isBufferEmpty = false) :
    io.Consumes (matchFormatWith echo format pre io).2 := by
  unfold matchFormatWith at h ⊢
  simp only at h ⊢
  split at h
  · rcases h with h | h <;> cases h
  · next hc =>
    rw [if_neg hc]
    exact matchFormatLoop_consumes echo format 0 0 io

/-- `matchFormat` consumes when it succeeds or stops at a byte that differs. Out of input it pushes
back instead. -/
theorem matchFormat_consumes (format pre : List UInt8) (io : Io)
    (h : (matchFormat format pre io).1 = true ∨
      (matchFormat format pre io).2.isBufferEmpty = false) :
    io.Consumes (matchFormat format pre io).2 := matchFormatWith_consumes true format pre io h

/-- Reading the digits of a number only consumes. -/
theorem numberLoop_consumes (r : Radix) (echo : Bool) (fuel : Nat) (n : Int) (io : Io) :
    io.Consumes (numberLoop r echo fuel n io).2 := by
  induction fuel generalizing n io with
  | zero => exact .refl io
  | succ fuel ih =>
    rw [numberLoop]
    split
    · exact (readByte_consumes echo io).trans (ih _ _)
    · exact .refl io

/-- `getNumber` consumes when it has a number or stops at something else than a digit. Out of input it
pushes back instead. -/
theorem getNumber_consumes {r : Radix} {echo : Bool} {pre : List UInt8} {io : Io}
    (h : (getNumberWith r echo pre io).1 ≠ none ∨
      (getNumberWith r echo pre io).2.isBufferEmpty = false) :
    io.Consumes (getNumberWith r echo pre io).2 := by
  unfold getNumberWith at h ⊢
  simp only at h ⊢
  split
  · exact .refl io
  · next hd =>
    rw [if_neg hd] at h
    split at h
    · rcases h with h | h
      · exact absurd rfl h
      · cases h
    · next hc =>
      rw [if_neg hc]
      exact numberLoop_consumes r echo _ 0 io

end HttpProxy
