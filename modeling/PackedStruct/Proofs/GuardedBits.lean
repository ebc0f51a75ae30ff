import PackedStruct.Guarded
import PackedStruct.Outcome
import PackedStruct.Proofs.ReplacedBits

namespace PackedStruct

namespace Guarded

theorem add_eq {a b : Nat} (fits : a + b < UInt64.size) : add a b = .ok (a + b) := by
  rw [add, Word.add?, if_pos fits]

theorem mul_eq {a b : Nat} (fits : a * b < UInt64.size) : mul a b = .ok (a * b) := by
  rw [mul, Word.mul?, if_pos fits]

theorem lowOnes_eq {n : Nat} (narrow : n ≤ 64) : lowOnes n = .ok (PackedStruct.lowOnes n) := by
  rw [lowOnes, PackedStruct.lowOnes]
  by_cases full : 64 ≤ n
  · rw [if_pos full, if_pos full]
  · have small : n < 64 := by omega
    have positive : (1 : UInt64) <<< n.toUInt64 ≠ 0 := by
      intro zero
      have power := toNat_one_shiftLeft small
      rw [zero] at power
      exact Nat.ne_of_lt (Nat.two_pow_pos n) power
    rw [if_neg full, if_neg full, shiftLeft, if_pos small]
    exact if_neg positive

theorem byteAt_eq {image : Image} {byte : Nat} (inside : byte < image.size) :
    byteAt image byte = .ok (image.bytes.getD byte 0) := by
  rw [byteAt, Array.getD_eq_getD_getElem?, Array.getElem?_eq_getElem inside]
  rfl

/-- Setting a byte that has been read is changing it. -/
theorem setByte_eq {image : Image} {byte : Nat} (inside : byte < image.size)
    (change : UInt8 → UInt8) :
    setByte image byte (change (image.bytes.getD byte 0)) =
      .ok ⟨image.bytes.modify byte change⟩ := by
  have bound : byte < image.bytes.size := inside
  rw [setByte, dif_pos bound, Array.getD_eq_getD_getElem?, Array.getElem?_eq_getElem bound]
  congr 2
  apply Array.ext
  · simp
  · intro i _ _
    by_cases here : byte = i
    · simp [Array.getElem_modify, here]
    · simp [Array.getElem_modify, Array.getElem_set, here]

end Guarded

namespace BitRange

/-- The chunks of the range from the bit `done` of its value upwards. -/
def chunksFrom (range : BitRange) (done : Nat) : List Chunk :=
  if range.width ≤ done then []
  else
    let first := (range.offset + done) / 8
    (List.range' first ((range.stop + 7) / 8 - first)).map range.chunk

/-- The chunk at the bit `done` of the value: up to the end of its byte or of the range. -/
def nextChunk (range : BitRange) (done : Nat) : Chunk :=
  let place := range.offset + done
  ⟨place / 8, place % 8, min (8 - place % 8) (range.width - done), done⟩

/-- A bit of the value at which a chunk begins, or which is the end of the last one. -/
def Seam (range : BitRange) (done : Nat) : Prop :=
  done = 0 ∨ (range.offset + done) % 8 = 0 ∨ range.width ≤ done

theorem chunksFrom_zero (range : BitRange) : range.chunksFrom 0 = range.chunks := by
  rw [chunksFrom, chunks]
  simp

theorem chunksFrom_of_le {range : BitRange} {done : Nat} (finished : range.width ≤ done) :
    range.chunksFrom done = [] :=
  if_pos finished

theorem nextChunk_width (range : BitRange) (done : Nat) :
    (range.nextChunk done).width = min (8 - (range.offset + done) % 8) (range.width - done) := rfl

/-- A chunk ends at a seam. -/
theorem seam_next (range : BitRange) (done : Nat) :
    range.Seam (done + (range.nextChunk done).width) := by
  rw [Seam, nextChunk_width]
  omega

theorem chunk_eq_nextChunk {range : BitRange} {done : Nat} (seam : range.Seam done)
    (more : done < range.width) :
    range.chunk ((range.offset + done) / 8) = range.nextChunk done := by
  simp only [chunk, nextChunk, stop, Chunk.mk.injEq, true_and]
  rcases seam with rfl | aligned | finished <;> omega

theorem chunksFrom_of_lt {range : BitRange} {done : Nat} (seam : range.Seam done)
    (more : done < range.width) :
    range.chunksFrom done =
      range.nextChunk done :: range.chunksFrom (done + (range.nextChunk done).width) := by
  have unfinished : ¬ range.width ≤ done := by omega
  have first := chunk_eq_nextChunk seam more
  have taken := range.nextChunk_width done
  rw [chunksFrom, if_neg unfinished]
  by_cases last : range.width ≤ done + (range.nextChunk done).width
  · have single : (range.stop + 7) / 8 - (range.offset + done) / 8 = 1 := by
      rw [stop]
      omega
    rw [chunksFrom_of_le last]
    dsimp only
    rw [single, List.range'_one, List.map_singleton, first]
  · have next : (range.offset + (done + (range.nextChunk done).width)) / 8 =
        (range.offset + done) / 8 + 1 := by omega
    have count : (range.stop + 7) / 8 - (range.offset + done) / 8 =
        (range.stop + 7) / 8 - (range.offset + (done + (range.nextChunk done).width)) / 8 + 1 := by
      rw [stop]
      omega
    rw [chunksFrom, if_neg last]
    dsimp only
    rw [count, List.range'_succ, List.map_cons, first, next]

/-- What holds at the end of the range and is kept when a chunk is put in front holds of the chunks
from any seam upwards. -/
theorem chunksFrom_induction {range : BitRange} {motive : Nat → List Chunk → Prop}
    (finished : ∀ done, range.width ≤ done → motive done [])
    (next : ∀ done rest, done < range.width →
      motive (done + (range.nextChunk done).width) rest →
      motive done (range.nextChunk done :: rest))
    {done : Nat} (seam : range.Seam done) : motive done (range.chunksFrom done) := by
  induction left : range.width - done using Nat.strongRecOn generalizing done with
  | ind left ih =>
    by_cases more : done < range.width
    · have taken := range.nextChunk_width done
      rw [chunksFrom_of_lt seam more]
      exact next done _ more (ih _ (by omega) (range.seam_next done) rfl)
    · rw [chunksFrom_of_le (Nat.not_lt.mp more)]
      exact finished done (Nat.not_lt.mp more)

end BitRange

namespace Guarded

/-- The range lies in an image of so many bytes, and its bits have numbers of 64 bits. -/
structure Room (range : BitRange) (size : Nat) : Prop where
  inside : range.stop ≤ 8 * size
  small : range.stop < UInt64.size

/-- There is room for the range and its value fits a word. -/
structure InBounds (range : BitRange) (size : Nat) : Prop extends Room range size where
  narrow : range.width ≤ 64

structure Round (range : BitRange) (size done : Nat) : Prop where
  place : range.offset + done < UInt64.size
  byte : (range.offset + done) / 8 < size
  shift : (range.offset + done) % 8 < 8
  taken : min (8 - (range.offset + done) % 8) (range.width - done) ≤ 64
  word : done < 64

theorem InBounds.round {range : BitRange} {size : Nat} (bounds : InBounds range size)
    {done : Nat} (more : done < range.width) : Round range size done := by
  obtain ⟨⟨inside, small⟩, narrow⟩ := bounds
  rw [BitRange.stop] at inside small
  constructor <;> omega

/-- A round of the loop reads one chunk. -/
theorem readFrom_of_lt {image : Image} {range : BitRange} (bounds : InBounds range image.size)
    {done : Nat} (more : done < range.width) (value : UInt64) :
    readFrom image range done value =
      readFrom image range (done + (range.nextChunk done).width)
        (value ||| image.readChunk (range.nextChunk done)) := by
  have round := bounds.round more
  rw [readFrom, dif_pos more]
  simp only [add_eq round.place, byteAt_eq round.byte, shiftByteRight, round.shift,
    lowOnes_eq round.taken, shiftLeft, round.word, ↓reduceIte, ok_bind]
  rfl

theorem readFrom_eq {image : Image} {range : BitRange} (bounds : InBounds range image.size)
    {done : Nat} (seam : range.Seam done) (value : UInt64) :
    readFrom image range done value =
      .ok ((range.chunksFrom done).foldl (fun value chunk => value ||| image.readChunk chunk)
        value) := by
  refine BitRange.chunksFrom_induction (motive := fun done chunks => ∀ value,
    readFrom image range done value =
      .ok (chunks.foldl (fun value chunk => value ||| image.readChunk chunk) value))
    ?_ ?_ seam value
  · intro done finished value
    rw [readFrom, dif_neg (Nat.not_lt.mpr finished)]
    rfl
  · intro done rest more ih value
    rw [readFrom_of_lt bounds more, ih, List.foldl_cons]

theorem readFrom_zero {image : Image} {range : BitRange} (bounds : InBounds range image.size) :
    readFrom image range 0 0 = .ok (image.read range) := by
  rw [readFrom_eq bounds (Or.inl rfl), BitRange.chunksFrom_zero]
  rfl

theorem read_eq {image : Image} {range : BitRange} (bounds : InBounds range image.size) :
    read image range = .ok (image.read range) := by
  rw [read, if_neg (Nat.not_lt.mpr bounds.narrow), readFrom_zero bounds]

/-- A round of the loop writes one chunk. -/
theorem writeFrom_of_lt {image : Image} {range : BitRange} (bounds : InBounds range image.size)
    {done : Nat} (more : done < range.width) (value : UInt64) :
    writeFrom value range image done =
      writeFrom value range (Image.writeChunk value image (range.nextChunk done))
        (done + (range.nextChunk done).width) := by
  have round := bounds.round more
  have change := setByte_eq round.byte (Image.replaceBits (range.nextChunk done) value)
  rw [writeFrom, dif_pos more]
  simp only [add_eq round.place, byteAt_eq round.byte, shiftByteLeft, round.shift,
    lowOnes_eq round.taken, shiftRight, round.word, ↓reduceIte, ok_bind]
  exact congrArg (· >>= _) change

theorem writeFrom_eq {image : Image} {range : BitRange} (bounds : InBounds range image.size)
    {done : Nat} (seam : range.Seam done) (value : UInt64) :
    writeFrom value range image done =
      .ok ((range.chunksFrom done).foldl (Image.writeChunk value) image) := by
  refine BitRange.chunksFrom_induction (motive := fun done chunks => ∀ image : Image,
    InBounds range image.size →
      writeFrom value range image done = .ok (chunks.foldl (Image.writeChunk value) image))
    ?_ ?_ seam image bounds
  · intro done finished image _
    rw [writeFrom, dif_neg (Nat.not_lt.mpr finished)]
    rfl
  · intro done rest more ih image bounds
    have still : InBounds range (Image.writeChunk value image (range.nextChunk done)).size := by
      rwa [Image.size_writeChunk]
    rw [writeFrom_of_lt bounds more, ih _ still, List.foldl_cons]

theorem writeFrom_zero {image : Image} {range : BitRange} (bounds : InBounds range image.size)
    (value : UInt64) : writeFrom value range image 0 = .ok (image.write range value) := by
  rw [writeFrom_eq bounds (Or.inl rfl), BitRange.chunksFrom_zero]
  rfl

theorem write_eq {image : Image} {range : BitRange} (bounds : InBounds range image.size)
    (value : UInt64) : write image range value = .ok (image.write range value) := by
  rw [write, if_neg (Nat.not_lt.mpr bounds.narrow), lowOnes_eq bounds.narrow, ok_bind,
    writeFrom_zero bounds, image.write_cut bounds.narrow bounds.inside]

theorem eq_of_add {a b sum : Nat} (added : add a b = .ok sum) : sum = a + b := by
  rw [add] at added
  cases known : Word.add? a b with
  | none =>
    rw [known] at added
    cases added
  | some found =>
    rw [known] at added
    cases added
    exact (Word.add?_eq_some_iff.mp known).1.symm

theorem lt_of_byteAt {image : Image} {byte : Nat} {value : UInt8}
    (read : byteAt image byte = .ok value) : byte < image.size := by
  by_cases inside : byte < image.size
  · exact inside
  · have none : image.bytes[byte]? = none := Array.getElem?_eq_none (Nat.not_lt.mp inside)
    rw [byteAt, none] at read
    cases read

theorem stop_le_of_readFrom {image : Image} {range : BitRange} {done : Nat}
    (more : done < range.width) {value result : UInt64}
    (read : readFrom image range done value = .ok result) : range.stop ≤ 8 * image.size := by
  induction left : range.width - done using Nat.strongRecOn generalizing done value with
  | ind left ih =>
    rw [readFrom, dif_pos more] at read
    obtain ⟨place, added, read⟩ := bind_eq_ok_iff.mp read
    obtain ⟨byte, found, read⟩ := bind_eq_ok_iff.mp read
    obtain ⟨lowered, _, read⟩ := bind_eq_ok_iff.mp read
    obtain ⟨mask, _, read⟩ := bind_eq_ok_iff.mp read
    obtain ⟨part, _, read⟩ := bind_eq_ok_iff.mp read
    have here := eq_of_add added
    have inside := lt_of_byteAt found
    by_cases last : range.width ≤ done + min (8 - place % 8) (range.width - done)
    · rw [BitRange.stop]
      omega
    · exact ih _ (by omega) (by omega) read rfl

/-- The guards stop each read out of bounds: a read goes through just where the range lies in the
image and has at most 64 bits. -/
theorem read_eq_ok_iff {image : Image} {range : BitRange} (nonempty : 0 < range.width)
    (small : range.stop < UInt64.size) :
    (∃ value, read image range = .ok value) ↔
      range.stop ≤ 8 * image.size ∧ range.width ≤ 64 := by
  constructor
  · intro found
    obtain ⟨value, done⟩ := found
    rw [read] at done
    by_cases wide : 64 < range.width
    · rw [if_pos wide] at done
      cases done
    · rw [if_neg wide] at done
      exact ⟨stop_le_of_readFrom nonempty done, Nat.not_lt.mp wide⟩
  · intro bounds
    exact ⟨_, read_eq ⟨⟨bounds.1, small⟩, bounds.2⟩⟩

/-- A range that goes on behind the end of the image is not read. -/
example : read (Image.zero 1) ⟨4, 8⟩ = .error (.index 1 1) := by cbv

end Guarded

end PackedStruct
