import HeaderWork.Proofs.Decision

/-!
# Reading a solution loses nothing

The head of a solution and its first chain entry are written in one way only, so that reading and
writing undo each other wherever the solution stands in a buffer.

* `Solution.fields`, `ChainEntry.fields` — what is read, in the order of the buffer.
* `Solution.read_eq_ok_iff`, `Solution.read_eq_error_iff` and the same for entries — success, and the
  field that is the error.
* `Solution.encode_solution`, `ChainEntry.encode_firstEntry` — writing what was read gives back the
  bytes it was read from.
* `Solution.encode_inj`, `ChainEntry.encode_inj` — different values are written differently.
* `Solution.read_append`, `ChainEntry.readFirst_append` — what was written reads back.
* `solution_is_lossless` — all of it, and that fields asked for on their own agree with the whole.
-/

namespace HeaderWork

theorem Bytes.slice_append (front mid tail : Bytes) :
    Bytes.slice (front ++ mid ++ tail) ⟨front.length, mid.length⟩ = mid := by
  simp [Bytes.slice]

namespace Solution

/-! ## The head of a solution -/

/-- The fields of the head of a solution, in the order of their reading. -/
def fields : List Span := [⟨143, 4⟩, ⟨147, 1⟩, ⟨148, 1⟩, ⟨149, 2⟩, ⟨151, 32⟩, ⟨183, 32⟩]

theorem read_eq_ok_iff {b : Bytes} {s : Solution} :
    read b = .ok s ↔ 215 ≤ b.length ∧ s = b.solution := by
  rw [read_eq, Bytes.granted_eq_ok_iff, Bytes.forall_fits_iff (by decide)]
  rfl

theorem read_eq_error_iff {b : Bytes} {e : OutOfRange} :
    read b = .error e ↔ ∃ field, b.missing? fields = some field ∧ e = ⟨field, b.length⟩ := by
  rw [read_eq, Bytes.granted_eq_error_iff]
  rfl

/-- **Written back, the head of a solution is what it was read from.** -/
theorem encode_solution {b : Bytes} (h : 215 ≤ b.length) :
    b.solution.encode = b.slice ⟨143, Layout.InSolution.headLen⟩ := by
  have single : [b.byteAt 147, b.byteAt 148] = (b.window 2 147).toList := rfl
  show _ = b.slice ⟨143, 72⟩
  -- The 72 bytes are taken apart from their end, in the order in which `encode` appends.
  rw [← Bytes.toList_window h, Bytes.toList_window_add b 40 32 143,
    Bytes.toList_window_add b 8 32 143, Bytes.toList_window_add b 6 2 143,
    Bytes.toList_window_add b 4 2 143, encode]
  simp [Bytes.solution, Bytes.version, single]

theorem encode_inj {s t : Solution} (h : s.encode = t.encode) : s = t := by
  unfold encode at h
  obtain ⟨h, hblock⟩ := List.append_inj' h (by simp)
  obtain ⟨h, hprev⟩ := List.append_inj' h (by simp)
  obtain ⟨h, hextra⟩ := List.append_inj' h (by simp)
  obtain ⟨hversion, hbytes⟩ := List.append_inj' h (by simp)
  have hversion : s.version = t.version := by
    simpa using congrArg LittleEndian.toUInt32 (Vector.toList_inj.1 hversion)
  have hextra : s.extraSpace = t.extraSpace := by
    simpa using congrArg LittleEndian.toUInt16 (Vector.toList_inj.1 hextra)
  cases s
  cases t
  simp_all [Vector.toList_inj]

/-- **What was written reads back**, whatever stands in front and behind. -/
theorem read_append (front : Octets 143) (s : Solution) (tail : Bytes) :
    read (front.toList ++ s.encode ++ tail) = .ok s := by
  have hfront : front.toList.length = 143 := Vector.length_toList
  have hhead : s.encode.length = 72 := s.length_encode
  have hlen : 215 ≤ (front.toList ++ s.encode ++ tail).length := by simp [hhead]; omega
  -- What is read is written as the very bytes in the middle, and those were written from `s`.
  have hslice := Bytes.slice_append front.toList s.encode tail
  rw [hfront, s.length_encode, ← encode_solution hlen] at hslice
  exact read_eq_ok_iff.2 ⟨hlen, (encode_inj hslice).symm⟩

/-- The fields that can be asked for on their own are the same in the whole. -/
theorem readVersion_of_read {b : Bytes} {s : Solution} (h : read b = .ok s) :
    readVersion b = .ok s.version ∧ readChains b = .ok s.chains := by
  obtain ⟨hlen, rfl⟩ := read_eq_ok_iff.1 h
  rw [readVersion_eq, readChains_eq, Bytes.granted_eq_ok_iff, Bytes.granted_eq_ok_iff]
  simp [Span.Fits, Span.stop, UInt64.size, Bytes.solution]
  omega

/-- Where the version cannot be read, that is the error of the whole. -/
theorem read_of_readVersion_eq_error {b : Bytes} {e : OutOfRange} (h : readVersion b = .error e) :
    read b = .error e := by
  rw [read, h]
  rfl

end Solution

namespace ChainEntry

/-! ## The first chain entry -/

/-- The fields of the first chain entry, in the order of their reading. -/
def fields : List Span := [⟨215, 20⟩, ⟨235, 32⟩]

theorem readFirst_eq_ok_iff {b : Bytes} {e : ChainEntry} :
    readFirst b = .ok e ↔ 267 ≤ b.length ∧ e = b.firstEntry := by
  rw [readFirst_eq, Bytes.granted_eq_ok_iff, Bytes.forall_fits_iff (by decide)]
  rfl

theorem readFirst_eq_error_iff {b : Bytes} {x : OutOfRange} :
    readFirst b = .error x ↔ ∃ field, b.missing? fields = some field ∧ x = ⟨field, b.length⟩ := by
  rw [readFirst_eq, Bytes.granted_eq_error_iff]
  rfl

/-- **Written back, the first entry is what it was read from.** -/
theorem encode_firstEntry {b : Bytes} (h : 267 ≤ b.length) :
    b.firstEntry.encode = b.slice ⟨215, Layout.InSolution.entryLen⟩ := by
  show _ = b.slice ⟨215, 52⟩
  rw [← Bytes.toList_window h, Bytes.toList_window_add b 20 32 215]
  rfl

theorem encode_inj {e f : ChainEntry} (h : e.encode = f.encode) : e = f := by
  obtain ⟨hchain, hdigest⟩ := List.append_inj' h (by simp)
  cases e
  cases f
  simp_all [Vector.toList_inj]

/-- **What was written behind a solution reads back.** -/
theorem readFirst_append (front : Octets 143) (s : Solution) (e : ChainEntry) (tail : Bytes) :
    readFirst (front.toList ++ s.encode ++ e.encode ++ tail) = .ok e := by
  have hhead : s.encode.length = 72 := s.length_encode
  have hentry : e.encode.length = 52 := e.length_encode
  have hfront : (front.toList ++ s.encode).length = 215 := by simp [hhead]
  have hlen : 267 ≤ (front.toList ++ s.encode ++ e.encode ++ tail).length := by
    simp [hhead, hentry]
    omega
  have hslice := Bytes.slice_append (front.toList ++ s.encode) e.encode tail
  rw [hfront, e.length_encode, ← encode_firstEntry hlen] at hslice
  exact readFirst_eq_ok_iff.2 ⟨hlen, (encode_inj hslice).symm⟩

end ChainEntry

/-! ## Solution and entry together -/

/-- **Reading a solution loses nothing.** Its head can be read from 215 bytes on and its first entry
from 267 bytes on; in front of that the error names the first field that is cut off. What was read
is written as the very bytes that it was read from, and what was written, behind any 143 bytes and in
front of any others, is read as it was. Version and number of entries are the same when they are
asked for on their own, and where the version cannot be read, the whole fails in the same way. -/
theorem solution_is_lossless (b tail : Bytes) (front : Octets 143) (s : Solution)
    (e : ChainEntry) :
    ((∃ t, Solution.read b = .ok t) ↔ 215 ≤ b.length) ∧
    ((∃ f, ChainEntry.readFirst b = .ok f) ↔ 267 ≤ b.length) ∧
    (∀ x, Solution.read b = .error x ↔
      ∃ field, b.missing? Solution.fields = some field ∧ x = ⟨field, b.length⟩) ∧
    (∀ x, ChainEntry.readFirst b = .error x ↔
      ∃ field, b.missing? ChainEntry.fields = some field ∧ x = ⟨field, b.length⟩) ∧
    (∀ t, Solution.read b = .ok t → t.encode = b.slice ⟨143, 72⟩) ∧
    (∀ f, ChainEntry.readFirst b = .ok f → f.encode = b.slice ⟨215, 52⟩) ∧
    Solution.read (front.toList ++ s.encode ++ tail) = .ok s ∧
    Solution.read (front.toList ++ s.encode ++ e.encode ++ tail) = .ok s ∧
    ChainEntry.readFirst (front.toList ++ s.encode ++ e.encode ++ tail) = .ok e ∧
    (∀ t, Solution.read b = .ok t → readVersion b = .ok t.version ∧ readChains b = .ok t.chains) ∧
    (∀ x, readVersion b = .error x → Solution.read b = .error x) := by
  refine ⟨?_, ?_, fun _ => Solution.read_eq_error_iff, fun _ => ChainEntry.readFirst_eq_error_iff,
    ?_, ?_, Solution.read_append front s tail, ?_, ChainEntry.readFirst_append front s e tail,
    fun _ => Solution.readVersion_of_read, fun _ => Solution.read_of_readVersion_eq_error⟩
  · simp [Solution.read_eq_ok_iff]
  · simp [ChainEntry.readFirst_eq_ok_iff]
  · intro t ht
    obtain ⟨hlen, rfl⟩ := Solution.read_eq_ok_iff.1 ht
    exact Solution.encode_solution hlen
  · intro f hf
    obtain ⟨hlen, rfl⟩ := ChainEntry.readFirst_eq_ok_iff.1 hf
    exact ChainEntry.encode_firstEntry hlen
  · rw [List.append_assoc _ e.encode]
    exact Solution.read_append front s (e.encode ++ tail)

end HeaderWork
