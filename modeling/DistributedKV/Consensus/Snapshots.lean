import DistributedKV.Consensus.StateMachine
import DistributedKV.Lib.Lts

/-!
# Snapshots of the state machine

A restored machine has the contents of the machine of which the snapshot was taken, but its times
may differ: a text does not hold all of a time. All strings come from JSON texts, so that they are
UTF-8 and two keys never become one (`Textual`). A `Restore` goes back in the history of a machine,
and the versions with it.
-/

namespace DistributedKV.Consensus

open Function List Option StateMachineSnapshot

open Json Utf8

/-! ## Contents that are text -/

/-- Every key and every value is UTF-8. -/
def Contents.Textual (c : Contents) : Prop :=
  ∀ k, (c k ≠ (none, none) → Valid k) ∧ ∀ v, (c k).1 = some v → Valid v

namespace Contents

variable {c : Contents}

open Contents

theorem Textual.put (h : c.Textual) {k v : List UInt8} (hk : Valid k) (hv : Valid v) :
    (c.put k v).Textual := by
  intro k'
  by_cases heq : k' = k
  · subst heq
    refine ⟨fun _ => hk, fun v' hv' => ?_⟩
    rw [Contents.put, update_self] at hv'
    cases hv'
    exact hv
  · rw [Contents.put, update_of_ne heq]
    exact h k'

theorem Textual.delete (h : c.Textual) (k : List UInt8) : (c.delete k).Textual := by
  unfold Contents.delete
  split_ifs with hk
  · intro k'
    by_cases heq : k' = k
    · subst heq
      rw [update_self]
      exact ⟨fun hne => absurd rfl hne, fun v hv => by cases hv⟩
    · rw [update_of_ne heq]
      exact h k'
  · exact h

/-- What comes from the log is text. -/
theorem Textual.perform (h : c.Textual) (text : List UInt8) : (c.perform text).Textual := by
  unfold Contents.perform
  cases hop : Operation.unmarshal text with
  | none => exact h
  | some op =>
    obtain ⟨-, hkey, hvalue⟩ := Operation.textual_unmarshal hop
    show Contents.Textual (ite _ _ _)
    split_ifs
    · exact h.put hkey hvalue
    · exact h.delete op.key
    · exact h

end Contents

/-! ## A snapshot and back -/

section RoundTrip

variable {T : Type} (p : Platform T)

/-- A time that was written and read. -/
def Platform.reread (t : T) : T :=
  match p.marshalTime t with
  | .ok body => (p.unmarshalTime body).getD p.zeroTime
  | .error _ => p.zeroTime

theorem Platform.encodeTime_eq_ok {t : T} {v : Value} (h : p.encodeTime t = .ok v) :
    Fits 0 v ∧ ∀ old, p.decodeTime v old = some (p.reread t) := by
  unfold Platform.encodeTime at h
  cases hbody : p.marshalTime t with
  | error text => simp [hbody] at h
  | ok body =>
    simp only [hbody, Except.ok.injEq] at h
    subst h
    obtain ⟨t', ht'⟩ := p.unmarshal_marshal hbody
    refine ⟨fits_string (p.wellQuoted_time hbody), fun old => ?_⟩
    show p.unmarshalTime body = some (p.reread t)
    simp only [Platform.reread, hbody, ht', getD_some]

theorem Platform.exists_encodeTime {t : T} (h : ∃ body, p.marshalTime t = .ok body) :
    ∃ v, p.encodeTime t = .ok v := by
  obtain ⟨body, hbody⟩ := h
  exact ⟨.string body, by rw [Platform.encodeTime, hbody]⟩

namespace EntryMetadata

/-- Metadata that was written and read. -/
def reread (m : EntryMetadata T) : EntryMetadata T :=
  ⟨p.reread m.createdAt, p.reread m.updatedAt, m.version⟩

theorem encode_eq_ok {m : EntryMetadata T} {v : Value} :
    m.encode p = .ok v ↔ ∃ created, p.encodeTime m.createdAt = .ok created ∧
        ∃ updated, p.encodeTime m.updatedAt = .ok updated ∧
          .object [(quote (bytes "created_at"), created), (quote (bytes "updated_at"), updated),
            (quote (bytes "version"), encodeInt64 m.version)] = v := by
  rw [encode, bind_eq_ok]
  simp only [bind_eq_ok, pure, Except.pure, Except.ok.injEq]

theorem fits_encode {m : EntryMetadata T} {v : Value} (h : m.encode p = .ok v) : Fits 1 v := by
  obtain ⟨created, hcreated, updated, hupdated, rfl⟩ := (encode_eq_ok p).mp h
  refine fits_object ?_
  simp only [forall_mem_cons, wellQuoted_quote, true_and]
  exact ⟨(p.encodeTime_eq_ok hcreated).1, (p.encodeTime_eq_ok hupdated).1, fits_encodeInt64 _,
    forall_mem_nil _⟩

theorem decode_encode {m : EntryMetadata T} {v : Value} (h : m.encode p = .ok v) :
    decodeStruct (fields p) v (zero p) = some (m.reread p) := by
  obtain ⟨created, hcreated, updated, hupdated, rfl⟩ := (encode_eq_ok p).mp h
  show decodeMembers (storeField (fields p)) _ _ = _
  rw [decodeMembers_part (fields p) (bytes "created_at") (by decide) rfl
      ((p.encodeTime_eq_ok hcreated).2 _),
    decodeMembers_part (fields p) (bytes "updated_at") (by decide) rfl
      ((p.encodeTime_eq_ok hupdated).2 _),
    decodeMembers_part (fields p) (bytes "version") (by decide) rfl (decodeInt64_encodeInt64 _ _)]
  rfl

end EntryMetadata

theorem StateMachineSnapshot.encode_eq_ok {s : StateMachineSnapshot T} {v : Value} :
    s.encode p = .ok v ↔ ∃ data, encodeMap encodeText s.data = .ok data ∧
        ∃ metadata, encodeMap (EntryMetadata.encode p) s.metadata = .ok metadata ∧
          .object [(quote (bytes "data"), data), (quote (bytes "metadata"), metadata),
            (quote (bytes "version"), encodeInt64 s.version)] = v := by
  rw [encode, bind_eq_ok]
  simp only [bind_eq_ok, pure, Except.pure, Except.ok.injEq]

theorem StateMachineSnapshot.fits_encode {s : StateMachineSnapshot T} {v : Value}
    (h : s.encode p = .ok v) : Fits 3 v := by
  obtain ⟨data, hdata, metadata, hmetadata, rfl⟩ := (encode_eq_ok p).mp h
  have hstring : ∀ a v, encodeText a = .ok v → Fits 0 v := by
    intro a v heq
    cases heq
    exact fits_encodeString a
  refine fits_object ?_
  simp only [forall_mem_cons, wellQuoted_quote, true_and]
  exact ⟨(fits_encodeMap hstring hdata).mono (by decide),
    fits_encodeMap (fun _ _ => EntryMetadata.fits_encode p) hmetadata,
    (fits_encodeInt64 _).mono (by decide), forall_mem_nil _⟩

namespace KVStateMachine

variable {p} {sm : KVStateMachine T}

open StateMachineSnapshot

theorem snapshot_eq_ok {now : Int64} {text : List UInt8} :
    sm.snapshot p now = .ok text ↔
      ∃ v, encode p ⟨sm.data, sm.metadata, now⟩ = .ok v ∧ render v = text := by
  unfold snapshot
  cases encode p ⟨sm.data, sm.metadata, now⟩ <;> simp

/-- A machine that restores a snapshot has the contents it was taken of. -/
theorem contents_restore (htext : sm.contents.Textual) {now : Int64} {text : List UInt8}
    (h : sm.snapshot p now = .ok text) (other : KVStateMachine T) :
    ∃ restored, other.restore p text = (restored, none) ∧ restored.contents = sm.contents := by
  obtain ⟨v, hv, rfl⟩ := snapshot_eq_ok.mp h
  have hfits := fits_encode p hv
  obtain ⟨data, hdata, metadata, hmetadata, rfl⟩ := (encode_eq_ok p).mp hv
  -- no two keys are written alike, so that each map comes back entry by entry
  have hdatakey : ∀ k ∈ sm.data, Valid k := by
    intro k hk
    obtain ⟨v, hv⟩ := GoMap.exists_lookup hk
    exact (htext k).1 (by simp [contents, hv])
  have hmetakey : ∀ k ∈ sm.metadata, Valid k := by
    intro k hk
    obtain ⟨m, hm⟩ := GoMap.exists_lookup hk
    exact (htext k).1 (by simp [contents, hm])
  obtain ⟨data', hdata', hvalues⟩ : ∃ data', decodeMap [] decodeString data ∅ = some data' ∧
      ∀ k, data'.lookup k = (sm.data.lookup k).map id := by
    refine decodeMap_encodeMap hdatakey (fun k a w ha hw => ?_) hdata
    cases hw
    rw [decodeString_encodeString, ((htext k).2 a ha).repair_eq]
    rfl
  obtain ⟨metadata', hmetadata', hversions⟩ :
      ∃ metadata', decodeMap (EntryMetadata.zero p) (decodeStruct (EntryMetadata.fields p))
          metadata ∅ = some metadata' ∧
        ∀ k, metadata'.lookup k = (sm.metadata.lookup k).map (EntryMetadata.reread p) :=
    decodeMap_encodeMap hmetakey (fun _ _ _ _ => EntryMetadata.decode_encode p) hmetadata
  refine ⟨⟨data', metadata'⟩, ?_, ?_⟩
  · have hread : unmarshal p (render (.object
        [(quote (bytes "data"), data), (quote (bytes "metadata"), metadata),
          (quote (bytes "version"), encodeInt64 now)])) = some ⟨data', metadata', now⟩ := by
      rw [StateMachineSnapshot.unmarshal, unmarshal_render hfits (by decide)]
      show decodeMembers (storeField (fields p)) _ _ = _
      rw [decodeMembers_part (fields p) (bytes "data") (by decide) rfl hdata',
        decodeMembers_part (fields p) (bytes "metadata") (by decide) rfl
          hmetadata',
        decodeMembers_part (fields p) (bytes "version") (by decide) rfl
          (decodeInt64_encodeInt64 _ _)]
      rfl
    rw [restore, hread]
  · funext k
    rw [contents, contents, hvalues k, hversions k, Option.map_id_fun, id, Option.map_map]
    rfl

end KVStateMachine

end RoundTrip

/-! ## A snapshot and the rest of the log -/

namespace KVStateMachine

variable {T : Type} (p : Platform T)

/-- The entries are applied in turn; `clock i` is what the clock shows at entry `i`. -/
def applyAll (clock : Nat → T) (sm : KVStateMachine T) : List LogEntry → KVStateMachine T
  | [] => sm
  | entry :: rest => applyAll (fun i => clock (i + 1)) (sm.apply p (clock 0) entry).1 rest

/-- The contents after some entries are computed from those before. -/
theorem contents_applyAll (clock : Nat → T) (sm : KVStateMachine T) (entries : List LogEntry) :
    (sm.applyAll p clock entries).contents =
      entries.foldl (fun c entry => c.perform entry.data) sm.contents := by
  induction entries generalizing clock sm with
  | nil => rfl
  | cons entry rest ih => rw [applyAll, ih, contents_apply, foldl_cons]

theorem textual_new : (new : KVStateMachine T).contents.Textual :=
  fun _ => ⟨fun hne => absurd rfl hne, fun v hv => by cases hv⟩

/-- All times that the machine holds can be written. -/
def TimesWritable (sm : KVStateMachine T) : Prop :=
  ∀ k m, sm.metadata.lookup k = some m →
    (∃ body, p.marshalTime m.createdAt = .ok body) ∧ ∃ body, p.marshalTime m.updatedAt = .ok body

variable {p}

variable {sm : KVStateMachine T} {now : T}

section

variable (h : sm.TimesWritable p)
include h

theorem TimesWritable.applyPut (op : Operation)
    (hnow : ∃ body, p.marshalTime now = .ok body) : (sm.applyPut op now).1.TimesWritable p := by
  intro k m hm
  by_cases hk : k = op.key
  · subst hk
    simp only [KVStateMachine.applyPut, AList.lookup_insert, some.injEq] at hm
    subst hm
    cases hold : sm.metadata.lookup op.key with
    | none => exact ⟨hnow, hnow⟩
    | some old => exact ⟨(h op.key old hold).1, hnow⟩
  · refine h k m ?_
    rwa [KVStateMachine.applyPut, AList.lookup_insert_ne hk] at hm

theorem TimesWritable.applyDelete (op : Operation) : (sm.applyDelete op).1.TimesWritable p := by
  unfold KVStateMachine.applyDelete
  split
  · intro k m hm
    exact h k m (GoMap.lookup_erase_eq_some.mp hm).2
  · exact h

theorem TimesWritable.apply (entry : LogEntry)
    (hnow : ∃ body, p.marshalTime now = .ok body) : (sm.apply p now entry).1.TimesWritable p := by
  unfold KVStateMachine.apply
  cases Operation.unmarshal entry.data with
  | none => exact h
  | some op =>
    show TimesWritable p (Prod.fst (ite _ _ _))
    split_ifs
    · exact h.applyPut op hnow
    · exact h.applyDelete op
    · exact h
    · exact h

theorem TimesWritable.applyAll {clock : Nat → T}
    (hclock : ∀ i, ∃ body, p.marshalTime (clock i) = .ok body) (entries : List LogEntry) :
    (sm.applyAll p clock entries).TimesWritable p := by
  induction entries generalizing clock sm with
  | nil => exact h
  | cons entry rest ih => exact ih (h.apply entry (hclock 0)) fun i => hclock (i + 1)

/-- A machine whose times can be written has a snapshot. -/
theorem TimesWritable.exists_snapshot (now : Int64) : ∃ text, sm.snapshot p now = .ok text := by
  obtain ⟨data, hdata⟩ : ∃ data, encodeMap encodeText sm.data = .ok data :=
    exists_encodeMap fun _ v _ => ⟨encodeString v, rfl⟩
  obtain ⟨metadata, hmetadata⟩ : ∃ v, encodeMap (EntryMetadata.encode p) sm.metadata = .ok v := by
    refine exists_encodeMap fun k m hm => ?_
    obtain ⟨created, hcreated⟩ := p.exists_encodeTime (h k m hm).1
    obtain ⟨updated, hupdated⟩ := p.exists_encodeTime (h k m hm).2
    exact ⟨_, (EntryMetadata.encode_eq_ok p).mpr ⟨created, hcreated, updated, hupdated, rfl⟩⟩
  exact ⟨_, snapshot_eq_ok.mpr
    ⟨_, (encode_eq_ok p).mpr ⟨data, hdata, metadata, hmetadata, rfl⟩, rfl⟩⟩

end

variable (p)

/-- The snapshot after `n` entries can be restored in any machine, and with the other entries it
gives the contents that all entries give. Only if the clock shows a time that cannot be written
there may be no snapshot. -/
theorem snapshot_then_suffix (entries : List LogEntry) (n : Nat) (clock clock' clock'' : Nat → T)
    (now : Int64) (other : KVStateMachine T) :
    (∀ text, (new.applyAll p clock (entries.take n)).snapshot p now = .ok text →
      ∃ restored, other.restore p text = (restored, none) ∧
        (restored.applyAll p clock' (entries.drop n)).contents =
          (new.applyAll p clock'' entries).contents) ∧
      ((∀ i, ∃ body, p.marshalTime (clock i) = .ok body) →
        ∃ text, (new.applyAll p clock (entries.take n)).snapshot p now = .ok text) := by
  constructor
  · intro text htext
    have htextual : (new.applyAll p clock (entries.take n)).contents.Textual := by
      rw [contents_applyAll]
      exact foldlRecOn _ _ textual_new fun _ h entry _ => h.perform entry.data
    obtain ⟨restored, hrestore, hcontents⟩ := contents_restore htextual htext other
    refine ⟨restored, hrestore, ?_⟩
    rw [contents_applyAll, hcontents, contents_applyAll, ← foldl_append,
      take_append_drop, contents_applyAll]
  · intro hclock
    have hempty : TimesWritable p (new : KVStateMachine T) := fun k m hm => by cases hm
    exact (hempty.applyAll hclock _).exists_snapshot now

end KVStateMachine

/-! ## Versions -/

/-- Whether an entry puts `k`. -/
def puts (text k : List UInt8) : Bool :=
  match Operation.unmarshal text with
  | some op => op.type = bytes "PUT" && op.key = k
  | none => false

/-- How often each key was put since it was last absent, after one more entry. -/
def Contents.tally (after : Contents) (text : List UInt8) (counts : List UInt8 → Nat) :
    List UInt8 → Nat := fun k =>
  if (after k).1 = none then 0 else if puts text k then counts k + 1 else counts k

/-- A key is absent and counted as such, or has the count as its version. The version has
64 bits. -/
def CountedBy (e : Option (List UInt8) × Option Int64) (n : Nat) : Prop :=
  e = (none, none) ∧ n = 0 ∨ ∃ v, e = (some v, some (Int64.ofNat n))

theorem CountedBy.put {e : Option (List UInt8) × Option Int64} {n : Nat} (h : CountedBy e n)
    (v : List UInt8) : CountedBy (some v, some ((e.2.map (· + 1)).getD 1)) (n + 1) := by
  refine Or.inr ⟨v, ?_⟩
  rcases h with ⟨rfl, rfl⟩ | ⟨v', rfl⟩
  · rfl
  · rw [map_some, getD_some, Int64.ofNat_add]
    rfl

theorem Contents.countedBy_perform {c : Contents} {counts : List UInt8 → Nat}
    (h : ∀ k, CountedBy (c k) (counts k)) (text k : List UInt8) :
    CountedBy (c.perform text k) ((c.perform text).tally text counts k) := by
  -- entries that leave `k` as it is, among them those that cannot be read
  have hsame : c.perform text k = c k → puts text k = false →
      CountedBy (c.perform text k) ((c.perform text).tally text counts k) := by
    intro hc hputs
    rw [tally, hputs, if_neg Bool.false_ne_true, hc]
    rcases h k with ⟨heq, -⟩ | ⟨v, heq⟩ <;> rw [heq]
    · exact Or.inl ⟨rfl, rfl⟩
    · exact Or.inr ⟨v, rfl⟩
  cases hop : Operation.unmarshal text with
  | none => exact hsame (by rw [perform, hop]) (by rw [puts, hop])
  | some op =>
    by_cases hput : op.type = bytes "PUT"
    · have hperform : c.perform text = c.put op.key op.value := by
        simp only [perform, hop, hput, if_true]
      by_cases hk : k = op.key
      · subst hk
        have hputs : puts text op.key = true := by simp [puts, hop, hput]
        rw [tally, hputs, hperform, put, update_self, if_pos rfl]
        exact (h op.key).put op.value
      · refine hsame ?_ ?_
        · rw [hperform, put, update_of_ne hk]
        · simp [puts, hop, Ne.symm hk]
    have hputs : puts text k = false := by simp [puts, hop, hput]
    by_cases hdelete : op.type = bytes "DELETE"
    · have hperform : c.perform text = c.delete op.key := by
        simp only [perform, hop, hdelete]
        rfl
      -- a deletion of a key that is not there changes nothing
      by_cases hgone : k = op.key ∧ (c op.key).1.isSome
      · obtain ⟨rfl, hsome⟩ := hgone
        rw [tally, hperform, delete, if_pos hsome, update_self, if_pos rfl]
        exact Or.inl ⟨rfl, rfl⟩
      refine hsame ?_ hputs
      rw [hperform, delete]
      split_ifs with hsome
      · exact update_of_ne (fun hk => hgone ⟨hk, hsome⟩) _ _
      · rfl
    · refine hsame ?_ hputs
      simp only [perform, hop, hput, hdelete, if_false]

/-- A call of the state machine; `restore i` is given its snapshot with number `i`. -/
inductive MachineCall (T : Type) where
  | apply (now : T) (entry : LogEntry)
  | snapshot (now : Int64)
  | restore (i : Nat)

/-- A machine with what it did so far. -/
structure MachineHistory (T : Type) where
  machine : KVStateMachine T
  /-- How often each key was put since it was last absent. -/
  puts : List UInt8 → Nat
  /-- The same in the history that the state stems from, to which a `Restore` goes back. -/
  stem : List UInt8 → Nat
  /-- The snapshots, each with the count of its history. -/
  snapshots : List (List UInt8 × (List UInt8 → Nat))

namespace MachineHistory

variable {T : Type} (p : Platform T)

/-- A new machine. -/
def new : MachineHistory T := ⟨.new, fun _ => 0, fun _ => 0, []⟩

def step (s : MachineHistory T) : MachineCall T → Option (MachineHistory T)
  | .apply now entry =>
    let machine := (s.machine.apply p now entry).1
    some { s with
      machine := machine
      puts := machine.contents.tally entry.data s.puts
      stem := machine.contents.tally entry.data s.stem }
  | .snapshot now =>
    match s.machine.snapshot p now with
    | .ok text => some { s with snapshots := s.snapshots ++ [(text, s.stem)] }
    | .error _ => some s
  | .restore i =>
    match s.snapshots[i]? with
    | none => none
    | some (text, stem) =>
      match s.machine.restore p text with
      | (machine, none) =>
        some { s with
          machine := machine
          puts := fun k => if (machine.contents k).1 = none then 0 else s.puts k
          stem := stem }
      | (_, some _) => some s

/-- The contents are text and are counted. -/
def Sound (c : Contents) (stem : List UInt8 → Nat) : Prop :=
  c.Textual ∧ ∀ k, CountedBy (c k) (stem k)

/-- The machine is sound, and so is what it gets back from its snapshots. -/
structure Inv (s : MachineHistory T) : Prop where
  sound : Sound s.machine.contents s.stem
  snapshots : ∀ e ∈ s.snapshots, ∃ c, Sound c e.2 ∧ ∀ other : KVStateMachine T,
    ∃ restored, other.restore p e.1 = (restored, none) ∧ restored.contents = c

variable {p}

theorem inv_new : Inv p (new : MachineHistory T) :=
  ⟨⟨KVStateMachine.textual_new, fun _ => Or.inl ⟨rfl, rfl⟩⟩, fun e he => by cases he⟩

theorem Inv.step {s t : MachineHistory T} {call : MachineCall T} (h : s.Inv p)
    (hstep : s.step p call = some t) : t.Inv p := by
  cases call with
  | apply now entry =>
    cases hstep
    refine ⟨?_, h.snapshots⟩
    rw [KVStateMachine.contents_apply]
    exact ⟨h.sound.1.perform entry.data, Contents.countedBy_perform h.sound.2 entry.data⟩
  | snapshot now =>
    rw [MachineHistory.step] at hstep
    cases htext : s.machine.snapshot p now with
    | error text =>
      simp only [htext, some.injEq] at hstep
      exact hstep ▸ h
    | ok text =>
      simp only [htext, some.injEq] at hstep
      subst hstep
      exact ⟨h.sound, forall_mem_append.mpr ⟨h.snapshots, forall_mem_singleton.mpr
        ⟨s.machine.contents, h.sound, KVStateMachine.contents_restore h.sound.1 htext⟩⟩⟩
  | restore i =>
    rw [MachineHistory.step] at hstep
    cases hi : s.snapshots[i]? with
    | none => simp [hi] at hstep
    | some e =>
      -- the snapshot was sound when it was made, and it still is
      obtain ⟨c, hsound, hrestore⟩ := h.snapshots e (mem_of_getElem? hi)
      obtain ⟨restored, hrestored, rfl⟩ := hrestore s.machine
      simp only [hi, hrestored, some.injEq] at hstep
      subst hstep
      exact ⟨hsound, h.snapshots⟩

/-- The version of each key is the count. -/
def VersionsAre (sm : KVStateMachine T) (counts : List UInt8 → Nat) : Prop :=
  ∀ k ∈ sm.data, (sm.metadata.lookup k).map (·.version) = some (Int64.ofNat (counts k))

section

variable {sm : KVStateMachine T} {stem : List UInt8 → Nat} (h : Sound sm.contents stem)
include h

theorem Sound.keys (k : List UInt8) : k ∈ sm.data ↔ k ∈ sm.metadata := by
  rw [← AList.lookup_isSome, ← AList.lookup_isSome]
  rcases h.2 k with ⟨hk, -⟩ | ⟨v, hk⟩ <;> obtain ⟨hdata, hversion⟩ := Prod.mk.inj hk
  · rw [hdata, map_eq_none_iff.mp hversion]
    rfl
  obtain ⟨m, hm, -⟩ := map_eq_some_iff.mp hversion
  rw [hdata, hm]
  rfl

theorem Sound.versionsAre : VersionsAre sm stem := by
  intro k hk
  rcases h.2 k with ⟨hcontents, -⟩ | ⟨v, hcontents⟩ <;>
    obtain ⟨hdata, hversion⟩ := Prod.mk.inj hcontents
  · rw [← AList.lookup_isSome, hdata] at hk
    cases hk
  · exact hversion

end

variable (p)

/-- The two maps have the same keys, the versions are the counts of the history that the state
stems from, and an entry that is refused changes nothing. -/
theorem versions_count (calls : List (MachineCall T)) :
    ∀ s ∈ Lts.trace (MachineHistory.step p) new calls,
      (∀ k, k ∈ s.machine.data ↔ k ∈ s.machine.metadata) ∧ VersionsAre s.machine s.stem ∧
        ∀ now entry, (s.machine.apply p now entry).2.success = false →
          (s.machine.apply p now entry).1 = s.machine := by
  intro s hs
  have hinv : s.Inv p := Lts.forall_trace inv_new (fun _ _ _ h hstep => h.step hstep) calls s hs
  exact ⟨hinv.sound.keys, hinv.sound.versionsAre, fun now entry => s.machine.apply_of_failure p⟩

/-- `k` is put, a snapshot is made, `k` is put again, and the snapshot is restored. -/
def putAroundSnapshot : List (MachineCall Unit) :=
  let put : LogEntry := ⟨1, 1, "PUT", createPutOperation (bytes "k") (bytes "v") 0, 0⟩
  [.apply () put, .snapshot 0, .apply () put, .restore 0]

theorem exec_putAroundSnapshot :
    ∃ s, Lts.exec (MachineHistory.step stoppedClock) new putAroundSnapshot = some s ∧
      s.machine.get (bytes "k") = some (bytes "v") ∧
      (s.machine.metadata.lookup (bytes "k")).map (·.version) = some 1 ∧
      s.puts (bytes "k") = 2 ∧ s.stem (bytes "k") = 1 := by
  have hrun : (Lts.exec (MachineHistory.step stoppedClock) new putAroundSnapshot).map (fun s =>
      (s.machine.get (bytes "k"), (s.machine.metadata.lookup (bytes "k")).map (·.version),
        s.puts (bytes "k"), s.stem (bytes "k"))) = some (some (bytes "v"), some 1, 2, 1) := by
    decide +kernel
  obtain ⟨s, hexec, hs⟩ := map_eq_some_iff.mp hrun
  exact ⟨s, hexec, by simpa only [Prod.mk.injEq] using hs⟩

theorem versions_count_putAroundSnapshot :
    ∃ s ∈ Lts.trace (MachineHistory.step stoppedClock) new putAroundSnapshot,
      s.machine.get (bytes "k") = some (bytes "v") ∧ s.stem (bytes "k") = 1 ∧
        VersionsAre s.machine s.stem := by
  obtain ⟨s, hexec, hget, -, -, hstem⟩ := exec_putAroundSnapshot
  have hmem := Lts.exec_mem_trace hexec
  exact ⟨s, hmem, hget, hstem, (versions_count stoppedClock putAroundSnapshot s hmem).2.1⟩

/-- A key that was put twice and never absent since has version 1. -/
theorem version_behind_puts :
    (∃ s, Lts.exec (MachineHistory.step stoppedClock) new putAroundSnapshot = some s ∧
      (s.machine.metadata.lookup (bytes "k")).map (·.version) = some 1 ∧ s.puts (bytes "k") = 2) ∧
      ¬∀ calls, ∀ s ∈ Lts.trace (MachineHistory.step stoppedClock) new calls,
        VersionsAre s.machine s.puts := by
  obtain ⟨s, hexec, hget, hversion, hputs, -⟩ := exec_putAroundSnapshot
  refine ⟨⟨s, hexec, hversion, hputs⟩, fun h => ?_⟩
  have hcount := h putAroundSnapshot s (Lts.exec_mem_trace hexec) _ (GoMap.mem_of_lookup hget)
  rw [hversion, hputs] at hcount
  exact absurd hcount (by decide)

end MachineHistory

end DistributedKV.Consensus
