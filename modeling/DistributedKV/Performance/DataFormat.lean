import DistributedKV.Performance.DataFile

/-!
# Reading a data file back

A file that was written record by record and opened again has an empty index, so every scan goes
through the file. It stops at the first record of a key; and a key or value that extends beyond
the reader's buffer is read in part, after which the scan goes on in the middle of a record.
-/

namespace DistributedKV.Performance

open BufReader List

/-- A record, with the index entry that is passed to `Write`. -/
structure Written where
  key : Key
  value : Value
  entry : IndexEntry

namespace DataFile

/-- Calls of `Write`, one after the other. -/
def writeAll (df : DataFile) (file : List UInt8) : List Written → DataFile × List UInt8
  | [] => (df, file)
  | r :: records =>
    let (df, file) := df.write file r.key r.value r.entry
    df.writeAll file records

end DataFile

/-- The file that records leave which are written into an empty one. -/
def fileAfter (records : List Written) : List UInt8 :=
  ((DataFile.opened []).writeAll [] records).2

/-- The keys and values of records. -/
def pairsOf (records : List Written) : List (Key × Value) :=
  records.map fun r => (r.key, r.value)

/-- A scan finds the value of the last record of the key, or an error if there is none. -/
def ScanFinds (records : List Written) (key : Key) : Prop :=
  match lastOf (pairsOf records) key with
  | some value => (DataFile.opened (fileAfter records)).scan (fileAfter records) key = .ok value
  | none => ∃ err, (DataFile.opened (fileAfter records)).scan (fileAfter records) key = .error err

variable {records : List Written} {key : Key}

theorem writeAll_file (df : DataFile) (file : List UInt8) (records : List Written) :
    ∃ bytes, (df.writeAll file records).2 = file ++ bytes ∧ FileHolds (pairsOf records) bytes := by
  induction records generalizing df file with
  | nil => exact ⟨[], (append_nil file).symm, rfl⟩
  | cons r records ih =>
    obtain ⟨bytes, hfile, hholds⟩ := ih (df.write file r.key r.value r.entry).1
      (df.write file r.key r.value r.entry).2
    refine ⟨record r.entry.checksum r.key r.value ++ bytes, ?_, _, bytes, rfl, hholds⟩
    rw [← append_assoc]
    exact hfile

theorem fileHolds_fileAfter : FileHolds (pairsOf records) (fileAfter records) := by
  obtain ⟨bytes, hfile, hholds⟩ := writeAll_file (DataFile.opened []) [] records
  rw [fileAfter, hfile, nil_append]
  exact hholds

variable {pairs : List (Key × Value)} {value : Value} (sum : UInt32) (later : List UInt8)

theorem FileHolds.length_le {file : List UInt8} (h : FileHolds pairs file) :
    pairs.length ≤ file.length := by
  induction pairs generalizing file with
  | nil => exact Nat.zero_le _
  | cons kv pairs ih =>
    obtain ⟨sum, later, rfl, hlater⟩ := h
    have hle := ih hlater
    rw [length_cons, length_append, length_record]
    omega

theorem firstOf_eq_none_iff : firstOf pairs key = none ↔ ∀ kv ∈ pairs, kv.1 ≠ key := by
  simp [firstOf]

/-- A key has a first record exactly if it has a last one. -/
theorem lastOf_eq_none_iff : lastOf pairs key = none ↔ firstOf pairs key = none := by
  rw [lastOf, firstOf_eq_none_iff, firstOf_eq_none_iff]
  simp only [mem_reverse]

open BufReader

theorem scan_reopened
    (hlengths : ∀ r ∈ records, r.key.length < 4294967296 ∧ r.value.length < 4294967296)
    (haligned : AlignedTo key ⟨0, (fileAfter records).length⟩ (pairsOf records)) :
    (DataFile.opened (fileAfter records)).scan (fileAfter records) key =
      match firstOf (pairsOf records) key with
      | some value => .ok value
      | none => .error .notFound := by
  have hfile : FileHolds (pairsOf records) (ofFile (fileAfter records)).pending :=
    fileHolds_fileAfter
  refine scanFrom_alignedTo hfile ?_ haligned (Nat.lt_succ_of_le fileHolds_fileAfter.length_le)
  intro kv hkv
  obtain ⟨r, hr, rfl⟩ := mem_map.mp hkv
  exact hlengths r hr

/-- **The format of data files.** If no key or value up to the first record of the key extends
beyond the reader's buffer, a scan of the file that is opened again is right exactly if that
record has the value of the last one, or there is none. -/
theorem scan_reopened_iff
    (hlengths : ∀ r ∈ records, r.key.length < 4294967296 ∧ r.value.length < 4294967296)
    (haligned : AlignedTo key ⟨0, (fileAfter records).length⟩ (pairsOf records)) :
    ScanFinds records key ↔ firstOf (pairsOf records) key = lastOf (pairsOf records) key := by
  rw [ScanFinds, scan_reopened hlengths haligned]
  cases hlast : lastOf (pairsOf records) key with
  | none =>
    have hfirst := lastOf_eq_none_iff.mp hlast
    rw [hfirst]
    exact iff_of_true ⟨_, rfl⟩ rfl
  | some value =>
    cases hfirst : firstOf (pairsOf records) key with
    | none => exact absurd (lastOf_eq_none_iff.mpr hfirst) (by rw [hlast]; simp)
    | some first =>
      show Except.ok first = Except.ok value ↔ some first = some value
      rw [Except.ok.injEq, Option.some.injEq]

/-- A scan of two records of different keys is right for each of them. -/
theorem scan_reopened_two : ScanFinds [⟨[97], [1], ⟨0, 0, 0⟩⟩, ⟨[98], [2], ⟨0, 0, 0⟩⟩] [98] := by
  have haligned : Aligned ⟨0, 28⟩ [([97], [1]), ([98], [2])] := by decide
  exact (scan_reopened_iff (by decide) (haligned.alignedTo [98])).mpr (by decide)

/-! ## Where the scan loses its place -/

open BufReader (bufferSize le32)

section

variable (hkey : key.length < 4088) (hlong : 4088 - key.length < value.length)
include hkey hlong

/-- At a long value in the first record, the rest of the buffer is the start of the value. -/
theorem readers_to_value :
    ∃ r₁ r₂ r₃, (ofFile (record sum key value ++ later)).readUint32 = .ok (.ofNat key.length, r₁) ∧
      r₁.readInto key.length = .ok (key, r₂) ∧ r₂.readUint32 = .ok (.ofNat value.length, r₃) ∧
      r₃.pending = value ++ (le32 sum ++ later) ∧ r₃.buffered = value.take (4088 - key.length) := by
  have hsize : bufferSize = 4096 := rfl
  have hfile : (ofFile (record sum key value ++ later)).pending =
      le32 (.ofNat key.length) ++ (key ++ (le32 (.ofNat value.length) ++
        (value ++ (le32 sum ++ later)))) := by
    simp [record]
  have hwindow : (ofFile (record sum key value ++ later)).window.skipFull 4 =
      ⟨4092, (record sum key value ++ later).length - 4096⟩ := by
    rw [window_ofFile, Window.skipFull, if_neg (Nat.not_succ_le_zero 3), Nat.sub_zero,
      Window.skip_fill (by decide) (by decide), hsize]
    dsimp only
    rw [Nat.min_eq_left]
    rw [length_append, length_record]
    omega
  obtain ⟨r₁, hread₁, hpending₁, hwindow₁⟩ := readUint32_spec hfile
  rw [hwindow] at hwindow₁
  obtain ⟨r₂, hread₂, hpending₂, hwindow₂⟩ := readInto_spec hpending₁
    (by rw [hwindow₁]; exact Or.inl (by dsimp only; omega))
  rw [hwindow₁, Window.skip_buffered (by decide)] at hwindow₂
  obtain ⟨r₃, hread₃, hpending₃, hwindow₃⟩ := readUint32_spec hpending₂
  rw [hwindow₂, Window.skipFull, if_pos (by dsimp only; omega),
    Window.skip_buffered (by omega)] at hwindow₃
  have hbuffered : r₃.buffered.length = 4088 - key.length := by
    have hlength := congrArg Window.buffered hwindow₃
    dsimp only [window] at hlength
    omega
  refine ⟨r₁, r₂, r₃, hread₁, hread₂, hread₃, hpending₃, ?_⟩
  have htake := congrArg (List.take (4088 - key.length)) hpending₃
  rwa [pending, ← hbuffered, take_left, hbuffered,
    take_append_of_le_length (Nat.le_of_lt hlong)] at htake

/-- A long value in the first record is read up to the end of the buffer, and the rest is zero.
-/
theorem scan_long_value (hvalue : value.length < 4294967296) :
    (DataFile.opened (record sum key value ++ later)).scan (record sum key value ++ later) key =
      .ok (value.take (4088 - key.length) ++
        List.replicate (value.length - (4088 - key.length)) 0) := by
  have hkeyNat : (UInt32.ofNat key.length).toNat = key.length :=
    UInt32.toNat_ofNat_of_lt' (Nat.lt_trans hkey (by decide))
  have hvalueNat : (UInt32.ofNat value.length).toNat = value.length :=
    UInt32.toNat_ofNat_of_lt' hvalue
  obtain ⟨r₁, r₂, r₃, hread₁, hread₂, hread₃, hpending, hstart⟩ :=
    readers_to_value sum later hkey hlong
  have hbuffered : r₃.buffered.length = 4088 - key.length := by
    rw [hstart, length_take_of_le (Nat.le_of_lt hlong)]
  have hread₄ := readInto_short (r := r₃) (n := value.length) (by omega) (by omega)
  -- four bytes are left in any case, which are taken for the checksum
  obtain ⟨bytes, r₅, hread₅, -⟩ := readFull_spec (r := ofFile r₃.rest) (n := 4)
    (by
      have hlength := congrArg List.length hpending
      rw [length_pending, length_append, length_append, length_le32] at hlength
      rw [pending_ofFile]
      omega)
    (by decide)
  show DataFile.scanFrom key _ (ofFile _) = _
  rw [DataFile.scanFrom, hread₁]
  dsimp only
  rw [hkeyNat, hread₂]
  dsimp only
  rw [hread₃]
  dsimp only
  rw [hvalueNat, hread₄]
  dsimp only
  rw [readUint32, hread₅, hbuffered, hstart]
  exact if_pos rfl

/-- So a value that ends in another byte than zero does not come back. -/
theorem not_scanFinds_long {entry : IndexEntry} (hvalue : value.length < 4294967296)
    (hlast : value.getLast? ≠ some 0) : ¬ ScanFinds [⟨key, value, entry⟩] key := by
  have hvalueOf : lastOf (pairsOf [⟨key, value, entry⟩]) key = some value := by
    simp [lastOf, firstOf, pairsOf]
  have hscan := scan_long_value entry.checksum [] hkey hlong hvalue
  rw [append_nil] at hscan
  intro hfinds
  rw [ScanFinds, hvalueOf] at hfinds
  have heq : _ = value := Except.ok.inj (hscan.symm.trans hfinds)
  have hzeros : value.length - (4088 - key.length) ≠ 0 := by omega
  rw [← heq, getLast?_append, getLast?_replicate, if_neg hzeros] at hlast
  exact hlast rfl

end

/-- The first of two records is found, and a value larger than the buffer does not come back. -/
theorem reopened_counterexample :
    ¬ ScanFinds [⟨[97], [1], ⟨0, 0, 0⟩⟩, ⟨[97], [2], ⟨0, 0, 0⟩⟩] [97] ∧
      ¬ ScanFinds [⟨[97], List.replicate 5000 1, ⟨0, 0, 0⟩⟩] [97] := by
  constructor
  · show ¬ (_ = Except.ok [2])
    decide +kernel
  apply not_scanFinds_long
  · decide
  · rw [length_replicate]
    decide
  · rw [length_replicate]
    decide
  · rw [getLast?_replicate]
    decide

end DistributedKV.Performance
