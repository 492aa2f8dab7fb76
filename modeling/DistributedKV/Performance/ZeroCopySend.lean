import Mathlib.Data.List.Basic

/-!
# What a zero-copy send puts on the stream (`zerocopy.go`)

`ZeroCopySend` writes large data straight to the descriptor and everything else through the
buffer of the connection. The raw write may be short, and is taken for complete unless it wrote
nothing.

The descriptor is taken to be that of the connection: `CreateOptimizedConnection` closes the
duplicate whose number it keeps, so the number may by then be free or belong to another file.
How much each write puts on the stream, and its error, are inputs. `net.Conn.Write` without an
error has written everything. A buffer from the pool has any content.
-/

namespace DistributedKV.Performance

/-- `ZeroCopyConfig`: what a send reads of it, and whether the system is Linux. -/
structure ZeroCopyConfig where
  bufferSize : Nat
  enableSendfile : Bool
  linux : Bool

/-- `ZeroCopyBuffer`; its capacity is the length of the data. -/
structure ZeroCopyBuffer where
  data : List UInt8
  size : Nat

def ZeroCopyBuffer.capacity (buffer : ZeroCopyBuffer) : Nat := buffer.data.length

/-- `ZeroCopyConnection`, with all the bytes that were put on its stream. -/
structure ZeroCopyConnection where
  fd : Int
  sendBuffer : ZeroCopyBuffer
  isOptimized : Bool
  stream : List UInt8

/-- A `write` on a descriptor: it writes a part without an error, or fails after a part. -/
inductive RawWrite where
  | ok (count : Nat)
  | fail (count : Nat) (err : String)

/-- `net.Conn.Write`: it writes everything, or fails after a part. -/
inductive ConnWrite where
  | all
  | fail (count : Nat) (err : String)

/-- How the writes of a send go, and the content of a buffer from the pool. -/
structure SendInput (config : ZeroCopyConfig) where
  raw : RawWrite
  direct : ConnWrite
  buffered : ConnWrite
  pooled : Vector UInt8 config.bufferSize

namespace ZeroCopyConnection

/-- `syscall.Write`, which returns -1 with an error. -/
def rawWrite (conn : ZeroCopyConnection) (data : List UInt8) :
    RawWrite → ZeroCopyConnection × Int × Option String
  | .ok count => ({ conn with stream := conn.stream ++ data.take count },
      min count data.length, none)
  | .fail count err => ({ conn with stream := conn.stream ++ data.take count }, -1, some err)

/-- `conn.conn.Write`. -/
def connWrite (conn : ZeroCopyConnection) (data : List UInt8) :
    ConnWrite → ZeroCopyConnection × Int × Option String
  | .all => ({ conn with stream := conn.stream ++ data }, data.length, none)
  | .fail count err => ({ conn with stream := conn.stream ++ data.take count },
      min count data.length, some err)

variable {config : ZeroCopyConfig} (conn : ZeroCopyConnection) (data : List UInt8)
  (input : SendInput config)

/-- `optimizedWrite`. -/
def optimizedWrite : ZeroCopyConnection × Int × Option String :=
  if conn.fd = -1 then conn.connWrite data input.direct else conn.rawWrite data input.raw

/-- `sendfileTransfer`. -/
def sendfileTransfer : ZeroCopyConnection × Int × Option String :=
  if !config.enableSendfile || !config.linux then (conn, 0, some "sendfile not available")
  else conn.optimizedWrite data input

/-- `GetWithSize`. -/
def getWithSize (size : Nat) : ZeroCopyBuffer :=
  if size ≤ config.bufferSize then ⟨input.pooled.toList, 0⟩ else ⟨List.replicate size 0, 0⟩

/-- The buffer of the connection, or a larger one if the data does not fit into it. -/
def bufferFor : ZeroCopyBuffer :=
  if conn.sendBuffer.capacity < data.length then getWithSize input data.length
  else conn.sendBuffer

/-- `bufferSend`. -/
def bufferSend : ZeroCopyConnection × Int × Option String :=
  let buffer := conn.bufferFor data input
  let buffer : ZeroCopyBuffer :=
    ⟨data.take buffer.capacity ++ buffer.data.drop data.length, data.length⟩
  { conn with sendBuffer := buffer }.connWrite (buffer.data.take buffer.size) input.buffered

/-- The first part of `ZeroCopySend`: large data is tried without the buffer. -/
def tryZeroCopy : ZeroCopyConnection × Int × Option String :=
  if conn.isOptimized && decide (data.length > 4096) then conn.sendfileTransfer data input
  else (conn, 0, none)

/-- `ZeroCopySend`. -/
def zeroCopySend : ZeroCopyConnection × Int × Option String :=
  let (conn, bytesWritten, err) := conn.tryZeroCopy data input
  if bytesWritten = 0 then conn.bufferSend data input else (conn, bytesWritten, err)

/-- The data goes straight to the descriptor, which takes a part of it without an error. -/
def CutShort : Prop :=
  (conn.isOptimized = true ∧ 4096 < data.length ∧ config.enableSendfile = true ∧
    config.linux = true ∧ conn.fd ≠ -1) ∧
  ∃ count, input.raw = .ok count ∧ 0 < count ∧ count < data.length

variable {conn data input}

theorem stream_bufferSend (h : (conn.bufferSend data input).2.2 = none) :
    (conn.bufferSend data input).1.stream = conn.stream ++ data := by
  -- the data fits into the buffer that is used, so the slice of it is in range
  have hfits : data.length ≤ (conn.bufferFor data input).capacity := by
    rw [bufferFor]
    split
    · rw [getWithSize]
      split <;> simp [ZeroCopyBuffer.capacity, *]
    · omega
  rw [bufferSend] at h ⊢
  rw [List.take_of_length_le hfits, List.take_left] at h ⊢
  cases hbuffered : input.buffered <;> rw [hbuffered] at h
  case all => rfl
  case fail => cases h

/-- A try that says what it did: nothing, everything or an error. -/
def Clean (conn : ZeroCopyConnection) (data : List UInt8)
    (result : ZeroCopyConnection × Int × Option String) : Prop :=
  (result.2.1 = 0 → result.1.stream = conn.stream) ∧
    (result.2.1 ≠ 0 → result.2.2 = none → result.1.stream = conn.stream ++ data)

theorem clean_connWrite (hne : data.length ≠ 0) (write : ConnWrite) :
    Clean conn data (conn.connWrite data write) := by
  cases write with
  | all => exact ⟨fun h => absurd (Int.ofNat.inj h) hne, fun _ _ => rfl⟩
  | fail count err =>
    refine ⟨fun h => ?_, nofun⟩
    obtain rfl : count = 0 := by
      simp only [connWrite] at h
      omega
    simp [connWrite]

theorem clean_rawWrite (hne : data.length ≠ 0)
    (hfull : ¬∃ count, input.raw = .ok count ∧ 0 < count ∧ count < data.length) :
    Clean conn data (conn.rawWrite data input.raw) := by
  cases hwrite : input.raw with
  | fail count err => exact ⟨nofun, nofun⟩
  | ok count =>
    have hcount : count = 0 ∨ data.length ≤ count := by
      by_contra h
      exact hfull ⟨count, hwrite, by omega, by omega⟩
    rcases hcount with rfl | hall
    · refine ⟨fun _ => by simp [rawWrite], fun h => ?_⟩
      simp only [rawWrite] at h
      omega
    refine ⟨fun h => ?_, fun _ _ => by simp [rawWrite, List.take_of_length_le hall]⟩
    simp only [rawWrite] at h
    omega

theorem clean_tryZeroCopy (hwhole : ¬conn.CutShort data input) :
    Clean conn data (conn.tryZeroCopy data input) := by
  have hidle : ∀ err, Clean conn data (conn, 0, err) := fun err => ⟨fun _ => rfl, (absurd rfl ·)⟩
  unfold tryZeroCopy sendfileTransfer optimizedWrite
  split
  · next hlarge =>
    rw [Bool.and_eq_true, decide_eq_true_eq] at hlarge
    split
    · exact hidle _
    next havailable =>
      rw [Bool.or_eq_true, not_or, Bool.not_eq_true', Bool.not_eq_true', Bool.not_eq_false,
        Bool.not_eq_false] at havailable
      split
      · exact clean_connWrite (by omega) _
      · next hfd =>
        exact clean_rawWrite (by omega) fun hshort =>
          hwhole ⟨⟨hlarge.1, hlarge.2, havailable.1, havailable.2, hfd⟩, hshort⟩
  · exact hidle _

/-- **What a send without an error has put on the stream.** -/
theorem send_iff (config : ZeroCopyConfig) (conn : ZeroCopyConnection) (data : List UInt8)
    (input : SendInput config) (hok : (conn.zeroCopySend data input).2.2 = none) :
    (conn.zeroCopySend data input).1.stream = conn.stream ++ data ↔ ¬conn.CutShort data input := by
  constructor
  · rintro hstream ⟨⟨hoptimized, hlarge, hsendfile, hlinux, hfd⟩, count, hwrite, hpos, hshort⟩
    have htry : conn.tryZeroCopy data input = conn.rawWrite data (.ok count) := by
      simp [tryZeroCopy, sendfileTransfer, optimizedWrite, hoptimized, hlarge, hsendfile, hlinux,
        hfd, hwrite]
    have hsome : (conn.rawWrite data (.ok count)).2.1 ≠ 0 := by
      simp only [rawWrite]
      omega
    rw [zeroCopySend, htry] at hstream
    dsimp only at hstream
    rw [if_neg hsome] at hstream
    have hlen := congrArg List.length hstream
    simp [rawWrite] at hlen
    omega
  · intro hwhole
    obtain ⟨hnothing, hall⟩ := clean_tryZeroCopy hwhole
    rw [zeroCopySend] at hok ⊢
    dsimp only at hok ⊢
    split
    · next hzero =>
      rw [if_pos hzero] at hok
      rw [stream_bufferSend hok, hnothing hzero]
    next hsome =>
      rw [if_neg hsome] at hok
      exact hall hsome hok

/-- A descriptor that takes one byte. -/
def oneByte : SendInput ⟨4, true, true⟩ := ⟨.ok 1, .all, .all, Vector.replicate 4 0⟩

/-- A small send goes through the buffer. -/
theorem send_small : (zeroCopySend ⟨3, ⟨[], 0⟩, true, []⟩ [1, 2] oneByte).2.2 = none ∧
      ((zeroCopySend ⟨3, ⟨[], 0⟩, true, []⟩ [1, 2] oneByte).1.stream = [] ++ [1, 2] ↔
        ¬CutShort ⟨3, ⟨[], 0⟩, true, []⟩ [1, 2] oneByte) :=
  ⟨rfl, send_iff _ ⟨3, ⟨[], 0⟩, true, []⟩ _ oneByte rfl⟩

/-- A raw write of 5000 bytes that puts one byte on the stream counts as sent. -/
theorem not_send_short :
    (zeroCopySend ⟨3, ⟨[], 0⟩, true, []⟩ (List.replicate 5000 1) oneByte).2.2 = none ∧
      (zeroCopySend ⟨3, ⟨[], 0⟩, true, []⟩ (List.replicate 5000 1) oneByte).1.stream = [1] ∧
      [1] ≠ [] ++ List.replicate 5000 (1 : UInt8) := by
  decide +kernel

end ZeroCopyConnection

end DistributedKV.Performance
