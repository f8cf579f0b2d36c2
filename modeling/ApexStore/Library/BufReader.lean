import ApexStore.Library.ByteOrder

/-!
# A chunked reader

A reader over a byte source that refills its chunk only when the chunk is
empty.  A read that finds the chunk empty and asks for at least a whole chunk
goes to the source directly.

What a sequence of reads returns depends only on the unread bytes
(`readExact_eq`); where the chunk boundaries fall depends only on lengths.
`ChunkShape` is that second half: it runs the same reads on lengths alone.
-/

namespace ApexStore

open List

structure BufReader (capacity : Nat) where
  /-- The part of the current chunk that has not been consumed. -/ buffered : Bytes
  /-- The bytes of the source behind the current chunk. -/ source : Bytes

namespace BufReader

variable {capacity : Nat}

def ofFile (file : Bytes) : BufReader capacity :=
  { buffered := [], source := file }

def unread (reader : BufReader capacity) : Bytes :=
  reader.buffered ++ reader.source

/-- After `fillBuf` the buffer is what `fill_buf` returns. -/
def fillBuf (reader : BufReader capacity) : BufReader capacity :=
  if reader.buffered = [] then
    { buffered := reader.source.take capacity
      source := reader.source.drop capacity }
  else reader

def read (reader : BufReader capacity) (count : Nat) : Bytes × BufReader capacity :=
  if reader.buffered = [] ∧ capacity ≤ count then
    (reader.source.take count,
      { reader with source := reader.source.drop count })
  else
    let filled := reader.fillBuf
    (filled.buffered.take count,
      { filled with buffered := filled.buffered.drop count })

/-- The retry loop of `read_exact`; `none` is `UnexpectedEof`. -/
def readLoop (reader : BufReader capacity) (count : Nat) :
    Option (Bytes × BufReader capacity) :=
  if count = 0 then some ([], reader)
  else
    let (chunk, next) := reader.read count
    if chunk = [] then none
    else
      match next.readLoop (count - chunk.length) with
      | some (rest, final) => some (chunk ++ rest, final)
      | none => none
termination_by count
decreasing_by
  have := List.length_pos_iff.mpr ‹_›
  omega

def readExact (reader : BufReader capacity) (count : Nat) :
    Option (Bytes × BufReader capacity) :=
  if count ≤ reader.buffered.length then
    some (reader.buffered.take count,
      { reader with buffered := reader.buffered.drop count })
  else reader.readLoop count

end BufReader

/-- The lengths of a reader's chunk and of what lies behind it. -/
structure ChunkShape where
  buffered : Nat
  source : Nat
  deriving DecidableEq, Repr

def ChunkShape.fill (capacity : Nat) (shape : ChunkShape) : ChunkShape :=
  if shape.buffered = 0 then
    { buffered := min capacity shape.source
      source := shape.source - capacity }
  else shape

/-- The shape after an exact read that does not run into the end. -/
def ChunkShape.readExact (capacity : Nat) (shape : ChunkShape) (count : Nat) :
    ChunkShape :=
  if count ≤ shape.buffered then
    { shape with buffered := shape.buffered - count }
  else
    let needed := count - shape.buffered
    if capacity ≤ needed then
      { buffered := 0, source := shape.source - needed }
    else
      { buffered := min capacity shape.source - needed
        source := shape.source - capacity }

namespace BufReader

variable {capacity : Nat}

def shape (reader : BufReader capacity) : ChunkShape :=
  { buffered := reader.buffered.length, source := reader.source.length }

theorem unread_fillBuf (reader : BufReader capacity) :
    reader.fillBuf.unread = reader.unread := by
  unfold fillBuf
  split
  · next empty => simp [unread, empty]
  · rfl

theorem read_append (reader : BufReader capacity) (count : Nat) :
    (reader.read count).1 ++ (reader.read count).2.unread = reader.unread := by
  unfold read
  split
  · next direct => simp [unread, direct.1]
  · rw [← unread_fillBuf reader]
    simp [unread, ← append_assoc]

theorem read_length_le (reader : BufReader capacity) (count : Nat) :
    (reader.read count).1.length ≤ count := by
  unfold read
  split <;> simp

variable {count : Nat} {bytes : Bytes}

theorem readLoop_append {reader next : BufReader capacity}
    (done : reader.readLoop count = some (bytes, next)) :
    bytes ++ next.unread = reader.unread ∧ bytes.length = count := by
  fun_induction readLoop reader count generalizing bytes next with
  | case1 => simp_all
  | case2 => cases done
  | case3 reader count counted chunk middle part some_bytes rest final loop ih =>
    obtain ⟨whole, size⟩ := ih loop
    have first := reader.read_append count
    have limit := reader.read_length_le count
    simp only [part] at first limit
    cases done
    rw [append_assoc, whole, first, length_append]
    exact ⟨rfl, by omega⟩
  | case4 => cases done

theorem readExact_append {reader next : BufReader capacity}
    (done : reader.readExact count = some (bytes, next)) :
    bytes ++ next.unread = reader.unread ∧ bytes.length = count := by
  unfold readExact at done
  split at done
  · next inside =>
    cases done
    simp [unread, ← append_assoc, inside]
  · exact readLoop_append done

theorem shape_fillBuf (reader : BufReader capacity) :
    reader.fillBuf.shape = reader.shape.fill capacity := by
  unfold fillBuf
  split
  · next empty => simp [shape, ChunkShape.fill, empty]
  · next filled => simp [shape, ChunkShape.fill, filled]

theorem readExact_length {reader next : BufReader capacity}
    (done : reader.readExact count = some (bytes, next)) :
    next.unread.length + count = reader.unread.length := by
  obtain ⟨whole, size⟩ := readExact_append done
  rw [← whole, length_append, size, Nat.add_comm]

theorem fillBuf_buffered_eq_nil (positive : 0 < capacity)
    (reader : BufReader capacity) :
    reader.fillBuf.buffered = [] ↔ reader.unread = [] := by
  unfold fillBuf
  split
  · next empty =>
    simp only [unread, empty, take_eq_nil_iff]
    exact or_iff_right (by omega)
  · next filled => simp [unread, filled]

private theorem readLoop_of_empty (capacity : Nat) {source : Bytes}
    (wanted : 0 < count) (enough : count ≤ source.length) :
    ∃ next : BufReader capacity,
      readLoop ⟨[], source⟩ count = some (source.take count, next) ∧
      next.unread = source.drop count ∧
      next.shape = ChunkShape.readExact capacity ⟨0, source.length⟩ count := by
  have nonempty : source ≠ [] := ne_nil_of_length_pos (by omega)
  have counted : count ≠ 0 := by omega
  by_cases direct : capacity ≤ count
  · refine ⟨⟨[], source.drop count⟩, ?_, rfl, ?_⟩
    · simp [read, direct, counted, nonempty, enough, readLoop]
    · simp [shape, ChunkShape.readExact, direct, counted]
  · have inside : min count capacity = count := by omega
    refine ⟨⟨(source.take capacity).drop count, source.drop capacity⟩, ?_, ?_, ?_⟩
    · simp [read, direct, fillBuf, take_take, inside, counted, nonempty, enough, readLoop]
    · rw [unread, ← drop_append_of_le_length (by simp; omega), take_append_drop]
    · simp [shape, ChunkShape.readExact, direct, counted]

theorem readExact_eq (reader : BufReader capacity) (count : Nat)
    (enough : count ≤ reader.unread.length) : ∃ next : BufReader capacity,
      reader.readExact count = some (reader.unread.take count, next) ∧
      next.unread = reader.unread.drop count ∧
      next.shape = reader.shape.readExact capacity count := by
  obtain ⟨buffered, source⟩ := reader
  have all : (⟨buffered, source⟩ : BufReader capacity).unread = buffered ++ source := rfl
  simp only [all, length_append] at enough ⊢
  by_cases inside : count ≤ buffered.length
  · refine ⟨⟨buffered.drop count, source⟩, ?_, ?_, ?_⟩
    · simp [readExact, inside]
    · simp [unread, drop_append_of_le_length, inside]
    · simp [shape, ChunkShape.readExact, inside]
  · have counted : count ≠ 0 := by omega
    obtain ⟨next, loop, left, lengths⟩ := readLoop_of_empty capacity
        (show 0 < count - buffered.length by omega)
        (show count - buffered.length ≤ source.length by omega)
    have shapes :
        ChunkShape.readExact capacity ⟨0, source.length⟩ (count - buffered.length) =
          ChunkShape.readExact capacity ⟨buffered.length, source.length⟩
            count := by
      simp [ChunkShape.readExact, inside]
      omega
    refine ⟨next, ?_, ?_, lengths.trans shapes⟩
    · by_cases empty : buffered = []
      · subst empty
        simpa [readExact, counted] using loop
      · have taken : (⟨buffered, source⟩ : BufReader capacity).read count =
            (buffered, ⟨[], source⟩) := by
          have whole : buffered.length ≤ count := by omega
          simp [read, fillBuf, empty, whole]
        rw [readExact, if_neg inside, readLoop, if_neg counted]
        simp only [taken, empty, if_false, loop]
        rw [take_append, take_of_length_le (show buffered.length ≤ count by omega)]
    · rw [left, drop_append,
        drop_of_length_le (show buffered.length ≤ count by omega), nil_append]

end BufReader

end ApexStore
