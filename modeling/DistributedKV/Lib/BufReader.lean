import Mathlib.Data.List.Basic

/-!
# Reading a file through a buffer

A `BufReader` hands out the bytes of a file from a buffer, which it fills by one read of the file
when it is empty (`bufio.Reader`). A read returns what is left in the buffer, maybe less than was
asked for; only `readFull` reads on. A read for at least the size of the buffer goes to the file
directly, which returns at most `maxRead` bytes at once.

How much of a file is in the buffer depends on the sizes of the reads so far and not on the bytes:
a `Window` follows it, and `Window.Whole n` says that a read of `n` bytes returns them all.
-/

namespace DistributedKV

open List

/-- What is in the buffer, and what has not been read from the file. -/
structure BufReader where
  buffered : List UInt8
  rest : List UInt8

/-- How a read in full fails: at the end of the file, or after a part of the bytes. -/
inductive ReadEnd where
  | eof
  | unexpectedEof
deriving DecidableEq, Repr

/-- How many bytes are in the buffer, and how many are still in the file. -/
structure Window where
  buffered : Nat
  rest : Nat

namespace BufReader

variable (r : BufReader)

/-- The default size of the buffer. -/
def bufferSize : Nat := 4096

/-- The most that one read of a file returns. -/
def maxRead : Nat := 1073741824

/-- A reader at the start of a file. -/
def ofFile (file : List UInt8) : BufReader := ⟨[], file⟩

/-- What has not been handed out. -/
def pending : List UInt8 := r.buffered ++ r.rest

def window : Window := ⟨r.buffered.length, r.rest.length⟩

/-- `Read` with a slice of `n` bytes: what it returns; `none` at the end of the file. -/
def read (r : BufReader) (n : Nat) : Option (List UInt8 × BufReader) :=
  if n = 0 then some ([], r)
  else if r.buffered = [] then
    if r.rest = [] then none
    -- a large read does not go through the buffer
    else if bufferSize ≤ n then
      some (r.rest.take (min n maxRead), ⟨[], r.rest.drop (min n maxRead)⟩)
    else
      some ((r.rest.take bufferSize).take n,
        ⟨(r.rest.take bufferSize).drop n, r.rest.drop bufferSize⟩)
  else some (r.buffered.take n, ⟨r.buffered.drop n, r.rest⟩)

/-- The loop of `io.ReadFull`: `left` bytes are missing, and every round adds some. -/
def fillUp : Nat → BufReader → Nat → List UInt8 → Except ReadEnd (List UInt8 × BufReader)
  | _, r, 0, got => .ok (got, r)
  | 0, _, _ + 1, _ => .error .unexpectedEof
  | rounds + 1, r, left + 1, got =>
    match r.read (left + 1) with
    | none => .error (if got = [] then .eof else .unexpectedEof)
    | some (bytes, r) => fillUp rounds r (left + 1 - bytes.length) (got ++ bytes)

/-- `io.ReadFull`. -/
def readFull (n : Nat) : Except ReadEnd (List UInt8 × BufReader) :=
  r.fillUp n n []

/-- The bytes of a number, the lowest first. -/
def le32 (x : UInt32) : List UInt8 :=
  [.ofNat x.toNat, .ofNat (x.toNat / 256), .ofNat (x.toNat / 65536), .ofNat (x.toNat / 16777216)]

/-- The number of four bytes. -/
def ofLe32 : List UInt8 → UInt32
  | [a, b, c, d] =>
    .ofNat (a.toNat + 256 * b.toNat + 65536 * c.toNat + 16777216 * d.toNat)
  | _ => 0

/-- `binary.Read` of an unsigned 32-bit number. -/
def readUint32 : Except ReadEnd (UInt32 × BufReader) :=
  (r.readFull 4).map fun (bytes, r) => (ofLe32 bytes, r)

/-- A read into a new slice of `n` bytes: what is not read stays zero. -/
def readInto (n : Nat) : Except ReadEnd (List UInt8 × BufReader) :=
  match r.read n with
  | none => .error .eof
  | some (bytes, r) => .ok (bytes ++ List.replicate (n - bytes.length) 0, r)

end BufReader

/-! ## The window -/

namespace Window

open BufReader (bufferSize maxRead)

/-- One read returns `n` bytes, if there are as many. -/
def Whole (w : Window) (n : Nat) : Prop := n ≤ w.buffered ∨ (w.buffered = 0 ∧ n ≤ maxRead)

instance (w : Window) (n : Nat) : Decidable (w.Whole n) := by unfold Whole; infer_instance

/-- The window after a read that returned `n` bytes. -/
def skip (w : Window) (n : Nat) : Window :=
  if n = 0 then w
  else if w.buffered = 0 then
    if bufferSize ≤ n then ⟨0, w.rest - n⟩
    else ⟨min bufferSize w.rest - n, w.rest - bufferSize⟩
  else ⟨w.buffered - n, w.rest⟩

/-- The window after `n` bytes have been read in full, by two reads if need be. -/
def skipFull (w : Window) (n : Nat) : Window :=
  if n ≤ w.buffered then w.skip n else skip ⟨0, w.rest⟩ (n - w.buffered)

theorem skip_buffered {b c n : Nat} (hb : b ≠ 0) : skip ⟨b, c⟩ n = ⟨b - n, c⟩ := by
  by_cases hn : n = 0
  · rw [skip, if_pos hn, hn, Nat.sub_zero]
  · rw [skip, if_neg hn, if_neg hb]

theorem skip_large {c n : Nat} (hn : bufferSize ≤ n) : skip ⟨0, c⟩ n = ⟨0, c - n⟩ := by
  have hpos : n ≠ 0 := Nat.ne_of_gt (Nat.lt_of_lt_of_le (by decide) hn)
  rw [skip, if_neg hpos, if_pos rfl, if_pos hn]

theorem skip_fill {c n : Nat} (hpos : n ≠ 0) (hn : n < bufferSize) :
    skip ⟨0, c⟩ n = ⟨min bufferSize c - n, c - bufferSize⟩ := by
  rw [skip, if_neg hpos, if_pos rfl, if_neg (Nat.not_le.mpr hn)]

end Window

namespace BufReader

variable {r : BufReader} {n : Nat}

@[simp] theorem pending_ofFile (file : List UInt8) : (ofFile file).pending = file := rfl

@[simp] theorem window_ofFile (file : List UInt8) : (ofFile file).window = ⟨0, file.length⟩ := rfl

theorem length_pending : r.pending.length = r.buffered.length + r.rest.length :=
  length_append

/-- What a reader hands out with `n` bytes, and what it is then. -/
structure Reads (r : BufReader) (n : Nat) (w : Window) (bytes : List UInt8) (r' : BufReader) :
    Prop where
  bytes_eq : bytes = r.pending.take n
  pending_eq : r'.pending = r.pending.drop n
  window_eq : r'.window = w

variable {bytes later : List UInt8} {r' : BufReader}

theorem Reads.length_eq {w : Window} (h : r.Reads n w bytes r') (hn : n ≤ r.pending.length) :
    bytes.length = n := by
  rw [h.bytes_eq, length_take, Nat.min_eq_left hn]

theorem read_buffered (hn : n ≤ r.buffered.length) :
    ∃ bytes r', r.read n = some (bytes, r') ∧ r.Reads n (r.window.skip n) bytes r' := by
  obtain ⟨buffered, rest⟩ := r
  by_cases hzero : n = 0
  · subst hzero
    exact ⟨[], _, rfl, by rw [take_zero], rfl, rfl⟩
  have hne : buffered ≠ [] := by
    rintro rfl
    exact hzero (Nat.le_zero.mp hn)
  refine ⟨buffered.take n, ⟨buffered.drop n, rest⟩, ?_, ?_, ?_, ?_⟩
  · rw [read, if_neg hzero, if_neg hne]
  · exact (take_append_of_le_length hn).symm
  · exact (drop_append_of_le_length hn).symm
  show (⟨(buffered.drop n).length, rest.length⟩ : Window) = _
  rw [length_drop]
  exact (Window.skip_buffered (mt length_eq_zero_iff.mp hne)).symm

theorem read_empty (hempty : r.buffered = []) (hn : n ≤ r.rest.length) (hmax : n ≤ maxRead) :
    ∃ bytes r', r.read n = some (bytes, r') ∧ r.Reads n (r.window.skip n) bytes r' := by
  obtain ⟨buffered, rest⟩ := r
  obtain rfl : buffered = [] := hempty
  by_cases hzero : n = 0
  · subst hzero
    exact ⟨[], _, rfl, by rw [take_zero], rfl, rfl⟩
  have hne : rest ≠ [] := by
    rintro rfl
    exact hzero (Nat.le_zero.mp hn)
  by_cases hlarge : bufferSize ≤ n
  · refine ⟨rest.take n, ⟨[], rest.drop n⟩, ?_, rfl, rfl, ?_⟩
    · rw [read, if_neg hzero, if_pos rfl, if_neg hne, if_pos hlarge, Nat.min_eq_left hmax]
    show (⟨0, (rest.drop n).length⟩ : Window) = _
    rw [length_drop]
    exact (Window.skip_large hlarge).symm
  have hsmall : n < bufferSize := Nat.not_le.mp hlarge
  refine ⟨(rest.take bufferSize).take n, ⟨(rest.take bufferSize).drop n, rest.drop bufferSize⟩,
    ?_, ?_, ?_, ?_⟩
  · rw [read, if_neg hzero, if_pos rfl, if_neg hne, if_neg hlarge]
  · rw [take_take, Nat.min_eq_left (Nat.le_of_lt hsmall)]
    rfl
  · show (rest.take bufferSize).drop n ++ rest.drop bufferSize = rest.drop n
    rw [← drop_append_of_le_length, take_append_drop]
    rw [length_take]
    exact Nat.le_min.mpr ⟨Nat.le_of_lt hsmall, hn⟩
  · show (⟨((rest.take bufferSize).drop n).length, (rest.drop bufferSize).length⟩ : Window) = _
    rw [length_drop, length_take, length_drop]
    exact (Window.skip_fill hzero hsmall).symm

theorem readInto_whole (hwhole : r.window.Whole n) (hn : n ≤ r.pending.length) :
    ∃ bytes r', r.readInto n = .ok (bytes, r') ∧ r.Reads n (r.window.skip n) bytes r' := by
  obtain ⟨bytes, r', hread, hreads⟩ :
      ∃ bytes r', r.read n = some (bytes, r') ∧ r.Reads n (r.window.skip n) bytes r' := by
    rcases hwhole with hle | ⟨hempty, hmax⟩
    · exact read_buffered hle
    have hnil : r.buffered = [] := length_eq_zero_iff.mp hempty
    refine read_empty hnil ?_ hmax
    rwa [pending, hnil, nil_append] at hn
  refine ⟨bytes, r', ?_, hreads⟩
  rw [readInto, hread]
  dsimp only
  rw [hreads.length_eq hn, Nat.sub_self, replicate_zero, append_nil]

theorem fillUp_round {rounds left : Nat} {got : List UInt8} (hleft : left ≠ 0)
    (h : r.read left = some (bytes, r')) :
    r.fillUp (rounds + 1) left got = r'.fillUp rounds (left - bytes.length) (got ++ bytes) := by
  obtain ⟨m, rfl⟩ := Nat.exists_eq_succ_of_ne_zero hleft
  rw [fillUp, h]

@[simp] theorem fillUp_zero (rounds : Nat) (got : List UInt8) :
    r.fillUp rounds 0 got = .ok (got, r) := by
  cases rounds <;> rfl

theorem readFull_of_read (h : r.read n = some (bytes, r')) (hlength : bytes.length = n) :
    r.readFull n = .ok (bytes, r') := by
  cases n with
  | zero =>
    cases h
    rfl
  | succ m =>
    rw [readFull, fillUp_round (Nat.succ_ne_zero m) h, hlength, Nat.sub_self, fillUp_zero,
      nil_append]

/-- A read in full that uses up the buffer: the next read fills it again. -/
theorem readFull_refill (hlt : r.buffered.length < n) (hn : n ≤ r.pending.length)
    (hsmall : n < bufferSize) :
    ∃ bytes r', r.readFull n = .ok (bytes, r') ∧ r.Reads n (r.window.skipFull n) bytes r' := by
  obtain ⟨buffered, rest⟩ := r
  rw [length_pending] at hn
  dsimp only at hlt hn
  have hrest : n - buffered.length ≤ rest.length := by omega
  have hmax : n - buffered.length ≤ maxRead := by
    have : bufferSize ≤ maxRead := by decide
    omega
  obtain ⟨bytes, r', hread, hreads⟩ :
      ∃ bytes r', (ofFile rest).read (n - buffered.length) = some (bytes, r') ∧
        (ofFile rest).Reads (n - buffered.length) _ bytes r' := read_empty rfl hrest hmax
  have hlength : bytes.length = n - buffered.length := hreads.length_eq hrest
  refine ⟨buffered ++ bytes, r', ?_, ?_, ?_, ?_⟩
  · by_cases hempty : buffered = []
    · subst hempty
      exact readFull_of_read hread hlength
    have hpos : buffered.length ≠ 0 := mt length_eq_zero_iff.mp hempty
    obtain ⟨m, rfl⟩ : ∃ m, n = m + 1 + 1 := ⟨n - 2, by omega⟩
    have hfirst : (⟨buffered, rest⟩ : BufReader).read (m + 1 + 1) =
        some (buffered, ofFile rest) := by
      rw [read, if_neg (Nat.succ_ne_zero _), if_neg hempty,
        take_of_length_le (Nat.le_of_lt hlt), drop_eq_nil_of_le (Nat.le_of_lt hlt)]
      rfl
    rw [readFull, fillUp_round (Nat.succ_ne_zero _) hfirst, fillUp_round (by omega) hread,
      hlength, Nat.sub_self, fillUp_zero, nil_append]
  · show _ = (buffered ++ rest).take n
    rw [hreads.bytes_eq, take_append, take_of_length_le (Nat.le_of_lt hlt)]
    rfl
  · show _ = (buffered ++ rest).drop n
    rw [hreads.pending_eq, drop_append, drop_eq_nil_of_le (Nat.le_of_lt hlt)]
    rfl
  · rw [hreads.window_eq]
    exact (if_neg (Nat.not_le.mpr hlt)).symm

theorem readFull_spec (hn : n ≤ r.pending.length) (hsmall : n < bufferSize) :
    ∃ bytes r', r.readFull n = .ok (bytes, r') ∧ r.Reads n (r.window.skipFull n) bytes r' := by
  by_cases hle : n ≤ r.window.buffered
  · obtain ⟨bytes, r', hread, hreads⟩ := read_buffered hle
    exact ⟨bytes, r', readFull_of_read hread (hreads.length_eq hn),
      by rwa [Window.skipFull, if_pos hle]⟩
  · exact readFull_refill (Nat.not_le.mp hle) hn hsmall

@[simp] theorem length_le32 (x : UInt32) : (le32 x).length = 4 := rfl

@[simp] theorem ofLe32_le32 (x : UInt32) : ofLe32 (le32 x) = x := by
  have hlt : x.toNat < 4294967296 := x.toNat_lt
  apply UInt32.toNat.inj
  simp only [le32, ofLe32, UInt8.toNat_ofNat', UInt32.toNat_ofNat']
  omega

theorem readUint32_spec {x : UInt32} (h : r.pending = le32 x ++ later) :
    ∃ r', r.readUint32 = .ok (x, r') ∧ r'.pending = later ∧ r'.window = r.window.skipFull 4 := by
  have hn : 4 ≤ r.pending.length := by
    rw [h, length_append, length_le32]
    exact Nat.le_add_right 4 _
  obtain ⟨bytes, r', hread, hreads⟩ := readFull_spec hn (by decide)
  have hbytes : bytes = le32 x := by
    rw [hreads.bytes_eq, h]
    exact take_left' (length_le32 x)
  refine ⟨r', ?_, ?_, hreads.window_eq⟩
  · rw [readUint32, hread, hbytes]
    show Except.ok (ofLe32 (le32 x), r') = _
    rw [ofLe32_le32]
  · rw [hreads.pending_eq, h]
    exact drop_left' (length_le32 x)

theorem readInto_spec (h : r.pending = bytes ++ later) (hwhole : r.window.Whole bytes.length) :
    ∃ r', r.readInto bytes.length = .ok (bytes, r') ∧ r'.pending = later ∧
      r'.window = r.window.skip bytes.length := by
  have hn : bytes.length ≤ r.pending.length := by
    rw [h, length_append]
    exact Nat.le_add_right _ _
  obtain ⟨got, r', hread, hreads⟩ := readInto_whole hwhole hn
  have hgot : got = bytes := by
    rw [hreads.bytes_eq, h]
    exact take_left' rfl
  refine ⟨r', by rw [hread, hgot], ?_, hreads.window_eq⟩
  rw [hreads.pending_eq, h]
  exact drop_left' rfl

/-- A read for more than there is in the buffer returns the buffer. -/
theorem readInto_short (hpos : r.buffered.length ≠ 0) (hlt : r.buffered.length < n) :
    r.readInto n = .ok (r.buffered ++ List.replicate (n - r.buffered.length) 0, ofFile r.rest) := by
  have hzero : n ≠ 0 := by omega
  have hne : r.buffered ≠ [] := mt length_eq_zero_iff.mpr hpos
  rw [readInto, read, if_neg hzero, if_neg hne, take_of_length_le (Nat.le_of_lt hlt),
    drop_eq_nil_of_le (Nat.le_of_lt hlt)]
  rfl

theorem readFull_eof (hpos : n ≠ 0) (hend : r.pending = []) : r.readFull n = .error .eof := by
  obtain ⟨hbuffered, hrest⟩ := append_eq_nil_iff.mp hend
  obtain ⟨m, rfl⟩ := Nat.exists_eq_succ_of_ne_zero hpos
  rw [readFull, fillUp, read, if_neg (Nat.succ_ne_zero m), if_pos hbuffered, if_pos hrest]
  rfl

end BufReader

end DistributedKV
