import Mathlib

/-!
# Streams in append mode

A file that is read and written through one buffered stream, opened for
reading and appending: the position is 0 when the stream is opened, reads
advance it, and every write goes to the end of the file and leaves it there.
How many bytes a transfer moves before the device fails is its limit.
-/

/-- What the file holds, including what is still buffered, and the position of
the stream. -/
structure AppendStream (β : Type) where
  content : List β
  position : ℕ
  deriving DecidableEq, Repr

namespace AppendStream

variable {β : Type}

/-- `fopen` in mode `a+b`. -/
def fopen (content : List β) : AppendStream β := ⟨content, 0⟩

/-- The bytes `fread` delivers. -/
def delivered (s : AppendStream β) (length limit : ℕ) : List β :=
  (s.content.drop s.position).take (min length limit)

/-- `fread`. -/
def fread (s : AppendStream β) (length limit : ℕ) : AppendStream β :=
  { s with position := s.position + (s.delivered length limit).length }

/-- `fwrite`, which appends the first bytes up to the limit.  Here every write
leaves the position at the end, an empty one too; in C that one does not move
it. -/
def fwrite (s : AppendStream β) (bytes : List β) (limit : ℕ) :
    AppendStream β where
  content := s.content ++ bytes.take limit
  position := (s.content ++ bytes.take limit).length

/-- `fseek` to the end. -/
def seekEnd (s : AppendStream β) : AppendStream β :=
  { s with position := s.content.length }

/-- `fseek` to where the stream is. -/
def seekCurrent (s : AppendStream β) : AppendStream β := s

/-- The offset of the first byte of the next write. -/
def appendOffset (s : AppendStream β) : ℕ := s.content.length

variable (s : AppendStream β) (bytes : List β) (limit : ℕ)

@[simp] theorem content_seekEnd : s.seekEnd.content = s.content := rfl

@[simp] theorem position_seekEnd :
    s.seekEnd.position = s.appendOffset := rfl

@[simp] theorem position_fwrite :
    (s.fwrite bytes limit).position =
      (s.fwrite bytes limit).appendOffset := rfl

theorem length_content_fwrite :
    (s.fwrite bytes limit).content.length =
      s.content.length + min limit bytes.length := by
  rw [fwrite, List.length_append, List.length_take]

theorem delivered_of_split {passed record rest : List β}
    (hcontent : s.content = passed ++ record ++ rest)
    (hposition : s.position = passed.length) {length limit : ℕ}
    (hlength : length = record.length) (hlimit : length ≤ limit) :
    s.delivered length limit = record := by
  rw [delivered, hcontent, hposition, List.append_assoc, List.drop_left,
    Nat.min_eq_left hlimit, hlength, List.take_left]

end AppendStream
