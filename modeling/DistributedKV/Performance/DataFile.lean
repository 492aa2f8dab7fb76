import DistributedKV.Lib.BufReader
import DistributedKV.Lib.GoMap
import DistributedKV.Performance.Basic

/-!
# Data files (`DataFile` of `storage.go`)

A record has the length of the key, the key, the length of the value, the value and a checksum.
`Write` appends a record and keeps an index of those it has written; `Scan` reads the file record
by record for a key that is not in the index.

The scan reads keys and values by one `Read` of a buffered reader each, so that it loses its place
when one of them extends beyond the buffer. Where none does (`Aligned`), `scanFrom_aligned` finds
the *first* record of a key, not the last one.
-/

namespace DistributedKV.Performance

open BufReader List

open BufReader (le32)

/-- `IndexEntry`: where a value is supposed to be. -/
structure IndexEntry where
  offset : Nat
  size : Nat
  checksum : UInt32

/-- `DataFile`: its size, and the index of what has been written since it was opened. -/
structure DataFile where
  size : Nat
  index : GoMap Key IndexEntry

/-- The errors of `Scan`. -/
inductive ScanError where
  | notFound
  | io (err : ReadEnd)
deriving DecidableEq, Repr

/-- A record, `[key_len][key][value_len][value][checksum]`. -/
def record (checksum : UInt32) (key : Key) (value : Value) : List UInt8 :=
  le32 (.ofNat key.length) ++ (key ++ (le32 (.ofNat value.length) ++ (value ++ le32 checksum)))

namespace DataFile

/-- `Open`, with the file as it is found. -/
def opened (file : List UInt8) : DataFile := ⟨file.length, ∅⟩

/-- `Write`: the new index and size, and the file. -/
def write (df : DataFile) (file : List UInt8) (key : Key) (value : Value) (entry : IndexEntry) :
    DataFile × List UInt8 :=
  ({ index := df.index.insert key entry
     size := df.size + (4 + key.length + 4 + value.length + 4) },
    file ++ record entry.checksum key value)

/-- `ReadAt`. -/
def readAt (file : List UInt8) (offset size : Nat) : Except ReadEnd Value :=
  let bytes := (file.drop offset).take size
  if bytes.length = size then .ok bytes else .error .eof

/-- The loop of `Scan`. Every round reads the length of a key: there are fewer rounds than
bytes. -/
def scanFrom (key : Key) : Nat → BufReader → Except ScanError Value
  | 0, _ => .error .notFound
  | rounds + 1, r =>
    match r.readUint32 with
    | .error .eof => .error .notFound
    | .error err => .error (.io err)
    | .ok (keyLen, r) =>
      match r.readInto keyLen.toNat with
      | .error err => .error (.io err)
      | .ok (keyBytes, r) =>
        match r.readUint32 with
        | .error err => .error (.io err)
        | .ok (valueLen, r) =>
          match r.readInto valueLen.toNat with
          | .error err => .error (.io err)
          | .ok (valueBytes, r) =>
            match r.readUint32 with
            | .error err => .error (.io err)
            | .ok (_, r) => if keyBytes = key then .ok valueBytes else scanFrom key rounds r

/-- `Scan`. -/
def scan (df : DataFile) (file : List UInt8) (key : Key) : Except ScanError Value :=
  match df.index.lookup key with
  | some entry => (readAt file entry.offset entry.size).mapError .io
  | none => scanFrom key (file.length + 1) (.ofFile file)

end DataFile

/-! ## Files of records -/

/-- The bytes of a sequence of records. -/
def fileOf (checksum : Value → UInt32) (records : List (Key × Value)) : List UInt8 :=
  records.flatMap fun kv => record (checksum kv.2) kv.1 kv.2

/-- The value of the first record of a key. -/
def firstOf (records : List (Key × Value)) (key : Key) : Option Value :=
  (records.find? fun kv => kv.1 = key).map Prod.snd

/-- The value of the last record of a key. -/
def lastOf (records : List (Key × Value)) (key : Key) : Option Value := firstOf records.reverse key

/-- The size of the values of records. -/
def totalSize (records : List (Key × Value)) : Int :=
  (records.map fun kv => (kv.2.length : Int)).sum

/-- The file is made of the records, with any checksums. -/
def FileHolds : List (Key × Value) → List UInt8 → Prop
  | [], file => file = []
  | (key, value) :: records, file =>
    ∃ sum later, file = record sum key value ++ later ∧ FileHolds records later

/-- Up to the first record of a key, no key and no value extends beyond the reader's buffer. -/
def AlignedTo (wanted : Key) (w : Window) : List (Key × Value) → Prop
  | [] => True
  | (key, value) :: records =>
    let atKey := w.skipFull 4
    let atValue := (atKey.skip key.length).skipFull 4
    atKey.Whole key.length ∧ atValue.Whole value.length ∧
      (key ≠ wanted → AlignedTo wanted ((atValue.skip value.length).skipFull 4) records)

/-- No key and no value extends beyond the reader's buffer, and the lengths fit into 32 bits. -/
def Aligned (w : Window) : List (Key × Value) → Prop
  | [] => True
  | (key, value) :: records =>
    let atKey := w.skipFull 4
    let atValue := (atKey.skip key.length).skipFull 4
    key.length < 4294967296 ∧ value.length < 4294967296 ∧ atKey.Whole key.length ∧
      atValue.Whole value.length ∧ Aligned ((atValue.skip value.length).skipFull 4) records

instance decidableAligned :
    ∀ (w : Window) (records : List (Key × Value)), Decidable (Aligned w records)
  | _, [] => .isTrue trivial
  | w, (key, value) :: records => by
    have := decidableAligned (((((w.skipFull 4).skip key.length).skipFull 4).skip
      value.length).skipFull 4) records
    unfold Aligned
    infer_instance

variable {checksum : Value → UInt32} {key : Key} {value : Value} {records : List (Key × Value)}

@[simp] theorem length_record (sum : UInt32) :
    (record sum key value).length = 4 + key.length + 4 + value.length + 4 := by
  simp only [record, length_append, length_le32]
  omega

@[simp] theorem fileOf_append (records later : List (Key × Value)) :
    fileOf checksum (records ++ later) = fileOf checksum records ++ fileOf checksum later :=
  flatMap_append

theorem fileOf_cons : fileOf checksum ((key, value) :: records) =
    record (checksum value) key value ++ fileOf checksum records :=
  flatMap_cons

theorem length_le_fileOf : records.length ≤ (fileOf checksum records).length := by
  induction records with
  | nil => exact Nat.zero_le _
  | cons kv records ih =>
    rw [fileOf_cons, length_cons, length_append, length_record]
    omega

variable {r : BufReader} {rounds : Nat} {w : Window}

/-- One round of a scan, at a record that the window allows to read. -/
theorem scanFrom_record {later : List UInt8} {sum : UInt32} {wanted : Key}
    (h : r.pending = record sum key value ++ later) (hkeyLen : key.length < 4294967296)
    (hvalueLen : value.length < 4294967296) (hkey : (r.window.skipFull 4).Whole key.length)
    (hvalue : (((r.window.skipFull 4).skip key.length).skipFull 4).Whole value.length) :
    ∃ r', r'.pending = later ∧ r'.window = (((((r.window.skipFull 4).skip key.length).skipFull
        4).skip value.length).skipFull 4) ∧ DataFile.scanFrom wanted (rounds + 1) r =
        if key = wanted then .ok value else DataFile.scanFrom wanted rounds r' := by
  have hkeyNat : (UInt32.ofNat key.length).toNat = key.length := UInt32.toNat_ofNat_of_lt' hkeyLen
  have hvalueNat : (UInt32.ofNat value.length).toNat = value.length :=
    UInt32.toNat_ofNat_of_lt' hvalueLen
  rw [record, append_assoc, append_assoc, append_assoc, append_assoc] at h
  obtain ⟨r₁, hread₁, hpending₁, hwindow₁⟩ := readUint32_spec h
  rw [← hwindow₁] at hkey hvalue ⊢
  obtain ⟨r₂, hread₂, hpending₂, hwindow₂⟩ := readInto_spec hpending₁ hkey
  rw [← hwindow₂] at hvalue ⊢
  obtain ⟨r₃, hread₃, hpending₃, hwindow₃⟩ := readUint32_spec hpending₂
  rw [← hwindow₃] at hvalue ⊢
  obtain ⟨r₄, hread₄, hpending₄, hwindow₄⟩ := readInto_spec hpending₃ hvalue
  rw [← hwindow₄]
  obtain ⟨r₅, hread₅, hpending₅, hwindow₅⟩ := readUint32_spec hpending₄
  refine ⟨r₅, hpending₅, hwindow₅, ?_⟩
  rw [DataFile.scanFrom, hread₁]
  dsimp only
  rw [hkeyNat, hread₂]
  dsimp only
  rw [hread₃]
  dsimp only
  rw [hvalueNat, hread₄]
  dsimp only
  rw [hread₅]

/-- **The scan** finds the first record of the key, if it does not lose its place before. -/
theorem scanFrom_alignedTo (hfile : FileHolds records r.pending)
    (hlengths : ∀ kv ∈ records, kv.1.length < 4294967296 ∧ kv.2.length < 4294967296)
    (haligned : AlignedTo key r.window records) (hrounds : records.length < rounds) :
    DataFile.scanFrom key rounds r =
      match firstOf records key with
      | some value => .ok value
      | none => .error .notFound := by
  induction records generalizing r rounds with
  | nil =>
    obtain ⟨m, rfl⟩ : ∃ m, rounds = m + 1 := ⟨rounds - 1, by simp at hrounds; omega⟩
    rw [DataFile.scanFrom, BufReader.readUint32, readFull_eof (by decide) hfile]
    rfl
  | cons kv records ih =>
    obtain ⟨k, v⟩ := kv
    obtain ⟨m, rfl⟩ : ∃ m, rounds = m + 1 := ⟨rounds - 1, by omega⟩
    obtain ⟨sum, later, hpending, hrest⟩ := hfile
    obtain ⟨hkey, hvalue, hlater⟩ := haligned
    obtain ⟨hkeyLen, hvalueLen⟩ := hlengths (k, v) mem_cons_self
    obtain ⟨r', hpending', hwindow', hround⟩ :=
      scanFrom_record hpending hkeyLen hvalueLen hkey hvalue
    rw [hround, firstOf, find?_cons]
    by_cases heq : k = key
    · simp [heq]
    rw [← hwindow'] at hlater
    rw [← hpending'] at hrest
    rw [if_neg heq, ih hrest (fun kv hkv => hlengths kv (mem_cons_of_mem _ hkv))
      (hlater heq) (by simpa using hrounds)]
    simp [heq, firstOf]

theorem fileHolds_fileOf : FileHolds records (fileOf checksum records) := by
  induction records with
  | nil => rfl
  | cons kv records ih =>
    exact ⟨_, _, fileOf_cons, ih⟩

theorem Aligned.alignedTo (h : Aligned w records) (key : Key) : AlignedTo key w records := by
  induction records generalizing w with
  | nil => trivial
  | cons kv records ih =>
    obtain ⟨-, -, hkey, hvalue, hlater⟩ := h
    exact ⟨hkey, hvalue, fun _ => ih hlater⟩

theorem Aligned.lengths (h : Aligned w records) :
    ∀ kv ∈ records, kv.1.length < 4294967296 ∧ kv.2.length < 4294967296 := by
  induction records generalizing w with
  | nil => simp
  | cons kv records ih =>
    obtain ⟨hkeyLen, hvalueLen, -, -, hlater⟩ := h
    exact forall_mem_cons.mpr ⟨⟨hkeyLen, hvalueLen⟩, ih hlater⟩

theorem scanFrom_aligned (hpending : r.pending = fileOf checksum records)
    (haligned : Aligned r.window records) (hrounds : records.length < rounds) :
    DataFile.scanFrom key rounds r =
      match firstOf records key with
      | some value => .ok value
      | none => .error .notFound := by
  have hfile : FileHolds records r.pending := by
    rw [hpending]
    exact fileHolds_fileOf
  exact scanFrom_alignedTo hfile haligned.lengths (haligned.alignedTo key) hrounds

/-- In a window with the whole rest of a file in the buffer all records can be read. -/
theorem aligned_buffered (h : (fileOf checksum records).length < 4294967296) :
    Aligned ⟨(fileOf checksum records).length, 0⟩ records := by
  induction records with
  | nil => trivial
  | cons kv records ih =>
    obtain ⟨key, value⟩ := kv
    rw [fileOf_cons, length_append, length_record] at h ⊢
    have hskip : ∀ m n : Nat, n ≤ m → (⟨m, 0⟩ : Window).skip n = ⟨m - n, 0⟩ := by
      intro m n hle
      by_cases hm : m = 0
      · obtain rfl : n = 0 := by omega
        rfl
      · exact Window.skip_buffered hm
    have hfull : ∀ m n : Nat, n ≤ m → (⟨m, 0⟩ : Window).skipFull n = ⟨m - n, 0⟩ := by
      intro m n hle
      rw [Window.skipFull, if_pos hle, hskip m n hle]
    rw [Aligned, hfull _ 4 (by omega), hskip _ key.length (by omega), hfull _ 4 (by omega),
      hskip _ value.length (by omega), hfull _ 4 (by omega)]
    refine ⟨by omega, by omega, .inl (by dsimp only; omega), .inl (by dsimp only; omega), ?_⟩
    convert ih (by omega) using 2
    omega

/-- A file that fits into the buffer is aligned: the first read fills the buffer with it. -/
theorem aligned_of_le (h : (fileOf checksum records).length ≤ BufReader.bufferSize) :
    Aligned ⟨0, (fileOf checksum records).length⟩ records := by
  have hlt : (fileOf checksum records).length < 4294967296 := Nat.lt_of_le_of_lt h (by decide)
  have hbuffered : Aligned ⟨(fileOf checksum records).length, 0⟩ records := aligned_buffered hlt
  cases records with
  | nil => trivial
  | cons kv records =>
    have hlong : 4 ≤ (fileOf checksum (kv :: records)).length := by
      rw [fileOf_cons, length_append, length_record]
      omega
    generalize (fileOf checksum (kv :: records)).length = n at *
    have hsame : (⟨0, n⟩ : Window).skipFull 4 = (⟨n, 0⟩ : Window).skipFull 4 := by
      have hfill : (⟨0, n⟩ : Window).skip 4 = ⟨n - 4, 0⟩ := by
        rw [Window.skip_fill (by decide) (by decide), Nat.min_eq_right h, Nat.sub_eq_zero_of_le h]
      have hnext : (⟨n, 0⟩ : Window).skip 4 = ⟨n - 4, 0⟩ := Window.skip_buffered (by omega)
      rw [Window.skipFull, Window.skipFull, if_pos hlong, hnext]
      exact hfill
    rw [Aligned, hsame, ← Aligned]
    exact hbuffered

end DistributedKV.Performance
